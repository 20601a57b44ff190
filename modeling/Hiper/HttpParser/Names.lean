import Hiper.StringUtil.Basic

/-!
# Methods and statuses

`HTTP_METHOD_MAP` and `HTTP_STATUS_MAP` of `http-parser/http_parser.h`.

`HTTP_METHOD_MAP` has the names in the order of the source, where `M-SEARCH` is written with
its dash; the numbers of the source are the positions.  `HTTP_STATUS_MAP` has the phrases
that `HttpStatusToString` and `dump` look up; a number that is in no line of it has none.
-/

namespace Hiper

namespace HttpParser

/-- `enum http_method`.  The numbers are 0 to 33. -/
inductive Method
  | delete | get | head | post | put | connect | options | trace | copy | lock | mkcol | move
  | propfind | proppatch | search | unlock | bind | rebind | unbind | acl | report | mkactivity
  | checkout | merge | msearch | notify | subscribe | unsubscribe | patch | purge | mkcalendar
  | link | unlink | source
  deriving DecidableEq, Repr

/-- `method_strings`.  It is the text of a request line. -/
def Method.name : Method → String
  | delete => "DELETE"
  | get => "GET"
  | head => "HEAD"
  | post => "POST"
  | put => "PUT"
  | connect => "CONNECT"
  | options => "OPTIONS"
  | trace => "TRACE"
  | copy => "COPY"
  | lock => "LOCK"
  | mkcol => "MKCOL"
  | move => "MOVE"
  | propfind => "PROPFIND"
  | proppatch => "PROPPATCH"
  | search => "SEARCH"
  | unlock => "UNLOCK"
  | bind => "BIND"
  | rebind => "REBIND"
  | unbind => "UNBIND"
  | acl => "ACL"
  | report => "REPORT"
  | mkactivity => "MKACTIVITY"
  | checkout => "CHECKOUT"
  | merge => "MERGE"
  | msearch => "M-SEARCH"
  | notify => "NOTIFY"
  | subscribe => "SUBSCRIBE"
  | unsubscribe => "UNSUBSCRIBE"
  | patch => "PATCH"
  | purge => "PURGE"
  | mkcalendar => "MKCALENDAR"
  | link => "LINK"
  | unlink => "UNLINK"
  | source => "SOURCE"

/-- `HTTP_STATUS_MAP`: the reason of a status code.  Nothing for the other codes. -/
def statusName : ℕ → Option String
  | 100 => some "Continue"
  | 101 => some "Switching Protocols"
  | 102 => some "Processing"
  | 200 => some "OK"
  | 201 => some "Created"
  | 202 => some "Accepted"
  | 203 => some "Non-Authoritative Information"
  | 204 => some "No Content"
  | 205 => some "Reset Content"
  | 206 => some "Partial Content"
  | 207 => some "Multi-Status"
  | 208 => some "Already Reported"
  | 226 => some "IM Used"
  | 300 => some "Multiple Choices"
  | 301 => some "Moved Permanently"
  | 302 => some "Found"
  | 303 => some "See Other"
  | 304 => some "Not Modified"
  | 305 => some "Use Proxy"
  | 307 => some "Temporary Redirect"
  | 308 => some "Permanent Redirect"
  | 400 => some "Bad Request"
  | 401 => some "Unauthorized"
  | 402 => some "Payment Required"
  | 403 => some "Forbidden"
  | 404 => some "Not Found"
  | 405 => some "Method Not Allowed"
  | 406 => some "Not Acceptable"
  | 407 => some "Proxy Authentication Required"
  | 408 => some "Request Timeout"
  | 409 => some "Conflict"
  | 410 => some "Gone"
  | 411 => some "Length Required"
  | 412 => some "Precondition Failed"
  | 413 => some "Payload Too Large"
  | 414 => some "URI Too Long"
  | 415 => some "Unsupported Media Type"
  | 416 => some "Range Not Satisfiable"
  | 417 => some "Expectation Failed"
  | 421 => some "Misdirected Request"
  | 422 => some "Unprocessable Entity"
  | 423 => some "Locked"
  | 424 => some "Failed Dependency"
  | 426 => some "Upgrade Required"
  | 428 => some "Precondition Required"
  | 429 => some "Too Many Requests"
  | 431 => some "Request Header Fields Too Large"
  | 451 => some "Unavailable For Legal Reasons"
  | 500 => some "Internal Server Error"
  | 501 => some "Not Implemented"
  | 502 => some "Bad Gateway"
  | 503 => some "Service Unavailable"
  | 504 => some "Gateway Timeout"
  | 505 => some "HTTP Version Not Supported"
  | 506 => some "Variant Also Negotiates"
  | 507 => some "Insufficient Storage"
  | 508 => some "Loop Detected"
  | 510 => some "Not Extended"
  | 511 => some "Network Authentication Required"
  | _ => none

end HttpParser

end Hiper
