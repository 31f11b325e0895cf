import HttpC.Core.Decimal
import HttpC.Core.Regex
import HttpC.L1Io.Util

/-!
# The connection: request line, headers, body transfer

`src/connection.c`, `src/request.c`, `src/response.c`. `Conn` is `struct Conn`
without its socket, which is passed beside it as a `Src` (bytes from the
client) and a `Dst` (bytes to the client). `buffer` holds the `bytes_read`
bytes `read_until` stored; the array behind them is zero (`calloc`, and the
explicit terminator), which `cstr` reads as the end of the string.

`ssize_t` values are `Int`; `strtoull` saturates at 2^64 - 1 and the cast to
`ssize_t` wraps, as on the targets the server builds for.
-/
namespace HttpC.L2
open HttpC.L1.Util HttpC.Regex

/-! ## Requests and responses -/

/-- mirrors src/request.c:13-15 -/
inductive Request where
  | GET | PUT | UNSUPPORTED
  deriving DecidableEq, Repr

/-- mirrors src/request.c:23-25 -/
def requestGetStr : Request → Bytes
  | .GET => ascii "GET"
  | .PUT => ascii "PUT"
  | .UNSUPPORTED => ascii "UNSUPPORTED"

/-- mirrors src/response.c:16-23 -/
inductive Response where
  | OK | CREATED | BAD_REQUEST | FORBIDDEN | NOT_FOUND | INTERNAL_SERVER_ERROR
  | NOT_IMPLEMENTED | VERSION_NOT_SUPPORTED
  deriving DecidableEq, Repr

def responseGetCode : Response → Nat
  | .OK => 200
  | .CREATED => 201
  | .BAD_REQUEST => 400
  | .FORBIDDEN => 403
  | .NOT_FOUND => 404
  | .INTERNAL_SERVER_ERROR => 500
  | .NOT_IMPLEMENTED => 501
  | .VERSION_NOT_SUPPORTED => 505

def responseGetMessage : Response → Bytes
  | .OK => ascii "OK"
  | .CREATED => ascii "Created"
  | .BAD_REQUEST => ascii "Bad Request"
  | .FORBIDDEN => ascii "Forbidden"
  | .NOT_FOUND => ascii "Not Found"
  | .INTERNAL_SERVER_ERROR => ascii "Internal Server Error"
  | .NOT_IMPLEMENTED => ascii "Not Implemented"
  | .VERSION_NOT_SUPPORTED => ascii "Version Not Supported"

/-! ## Character classes (C locale) -/

def isAlpha (c : UInt8) : Bool := (65 ≤ c && c ≤ 90) || (97 ≤ c && c ≤ 122)
def isDigit (c : UInt8) : Bool := 48 ≤ c && c ≤ 57
/-- `[[:space:]]` -/
def isSpace (c : UInt8) : Bool := (9 ≤ c && c ≤ 13) || c == 32
/-- `[a-zA-Z0-9/_.-]` -/
def isUri (c : UInt8) : Bool :=
  isAlpha c || isDigit c || c == 47 || c == 95 || c == 46 || c == 45
/-- `[a-zA-Z0-9.-]` -/
def isKey (c : UInt8) : Bool := isAlpha c || isDigit c || c == 46 || c == 45
/-- `[a-zA-Z0-9.:/*-]` -/
def isValue (c : UInt8) : Bool :=
  isAlpha c || isDigit c || c == 46 || c == 58 || c == 47 || c == 42 || c == 45
/-- `.` without `REG_NEWLINE` -/
def isAny (_ : UInt8) : Bool := true

/-- mirrors src/connection.c:57 -/
def REQUEST_LINE : Pat where
  anchored := true
  items :=
    ⟨isAlpha, 1, 8, true⟩ :: lit (ascii " /") ++
    ⟨isUri, 1, 63, true⟩ :: lit (ascii " HTTP/") ++
    ⟨isDigit, 1, 2, true⟩ :: ⟨isAny, 1, 1, false⟩ ::
    ⟨isDigit, 1, 2, true⟩ :: lit (ascii "\r\n")

/-- mirrors src/connection.c:58 -/
def HEADER_FIELD : Pat where
  anchored := false
  items :=
    ⟨isKey, 1, 128, true⟩ :: lit (ascii ":") ++
    ⟨isSpace, 1, 1, false⟩ :: ⟨isValue, 1, 128, true⟩ :: lit (ascii "\r\n")

/-! ## C library -/

/-- `strncmp(s, t, n) == 0` -/
def strncmpEq (s t : Bytes) (n : Nat) : Bool := (cstr s).take n == (cstr t).take n

/-- `strtoull(v, NULL, 10)` -/
def strtoull (v : Bytes) : Nat :=
  let v := v.dropWhile isSpace
  let neg := v.head? == some 45
  let v := if neg || v.head? == some 43 then v.drop 1 else v
  let n := valueOf (v.takeWhile isDigit)
  if 2 ^ 64 ≤ n then 2 ^ 64 - 1 else if neg then (2 ^ 64 - n) % 2 ^ 64 else n

/-- `(ssize_t)n` for an `unsigned long long` -/
def ssize (n : Nat) : Int := if n < 2 ^ 63 then n else n - 2 ^ 64

/-! ## The connection -/

/-- mirrors src/connection.c:60-71 -/
structure Conn (α : Type) where
  buffer : List α
  bytesRead : Int
  messageStart : Nat
  inMessage : Int
  contentLength : Int
  uri : Bytes
  requestId : Bytes
  request : Request
  deriving DecidableEq, Repr

variable {α : Type}

/-- What `calloc` and `conn_new` leave; `none` from `conn_new` is the caller's
`calloc` oracle.
mirrors src/connection.c:228-237 -/
def connNew : Conn α := ⟨[], 0, 0, 0, 0, [], ascii "0", .UNSUPPORTED⟩

/-- mirrors src/connection.c:91-93 -/
def connIsEmpty (c : Conn α) : Bool := c.bytesRead == 0

/-- mirrors src/connection.c:95-107 -/
def validateUri (c : Conn α) : Option Response :=
  if c.uri = [] then some .BAD_REQUEST else none

/-- Whether each `regcomp` of a request succeeds. -/
structure Regcomp where
  requestLine : Bool
  headerField : Bool
  deriving DecidableEq, Repr

def Regcomp.ok : Regcomp := ⟨true, true⟩

def CONTENT_LENGTH_KEY : Bytes := ascii "Content-Length"
def REQUEST_ID_KEY : Bytes := ascii "Request-Id"

/-- One matched header line: `key` points at the key, `keyLen` is its captured
length, `value` its captured value.
mirrors src/connection.c:139-152 -/
def storeField (key : Bytes) (keyLen : Nat) (value : Bytes) (c : Conn α) : Conn α :=
  if keyLen = CONTENT_LENGTH_KEY.length ∧ strncmpEq key CONTENT_LENGTH_KEY keyLen then
    { c with contentLength := ssize (strtoull value) }
  else if keyLen = REQUEST_ID_KEY.length ∧ strncmpEq key REQUEST_ID_KEY keyLen then
    { c with requestId := (cstr value).take 128 }
  else c

/-- Returns `offset`.
mirrors src/connection.c:131-155 -/
def parseHeadersLoop (headers : Bytes) : Nat → Nat → Conn α → Nat × Conn α
  | 0, offset, c => (offset, c)
  | fuel + 1, offset, c =>
    match regexec HEADER_FIELD (headers.drop offset) with
    | some (m0 :: m1 :: m2 :: _) =>
      let keyLen := m1.eo - m1.so
      let valueLen := m2.eo - m2.so
      let value := (headers.drop (offset + m2.so)).take valueLen
      let c' := storeField (headers.drop (offset + m1.so)) keyLen value c
      parseHeadersLoop headers fuel (offset + m0.eo) c'
    | _ => (offset, c)

/-- mirrors src/connection.c:113-160 -/
def parseHeaders [Octet α] (rc : Regcomp) (c : Conn α) : Option Response × Conn α :=
  if rc.headerField = false then (some .INTERNAL_SERVER_ERROR, c)
  else
    let headers := (octets c.buffer).drop c.messageStart
    let (offset, c') := parseHeadersLoop headers (headers.length + 1) 0 c
    (none, { c' with messageStart := c'.messageStart + (offset + 2) })

/-- mirrors src/connection.c:180-188 -/
def methodOf (tok : Bytes) : Request :=
  if strncmpEq tok (ascii "GET") 3 then .GET
  else if strncmpEq tok (ascii "PUT") 3 then .PUT
  else .UNSUPPORTED

/-- mirrors src/connection.c:163-226 -/
def processRequest [Octet α] (rc : Regcomp) (c : Conn α) : Option Response × Conn α :=
  if rc.requestLine = false then (some .INTERNAL_SERVER_ERROR, c)
  else
    let buf := octets c.buffer
    match regexec REQUEST_LINE buf with
    | some (_ :: m1 :: m2 :: _ :: m4 :: _) =>
      let c := { c with request := methodOf (buf.drop m1.so) }
      let uriLen := m2.eo - m2.so
      if uriLen ≥ 64 then (some .BAD_REQUEST, c)
      else
        let c := { c with uri := (buf.drop m2.so).take uriLen }
        if m4.eo - m4.so > 1 then (some .BAD_REQUEST, c)
        else if strncmpEq (buf.drop m4.so) (ascii "1") 1 = false then
          (some .VERSION_NOT_SUPPORTED, c)
        else
          let c := { c with messageStart := m4.eo + 2 }
          match validateUri c with
          | some res => (some res, c)
          | none => parseHeaders rc c
    | _ => (some .BAD_REQUEST, c)

def BLANK_LINE : Bytes := ascii "\r\n\r\n"

/-- `none` is the `NULL` of an accepted request.
mirrors src/connection.c:247-285 -/
def connParse [Octet α] (rc : Regcomp) (s : Src α) : Option Response × Conn α × Src α :=
  match readUntil s BUFFER_SIZE BLANK_LINE with
  | (.error e, s') =>
    let c := { (connNew : Conn α) with bytesRead := -1 }
    if e = .EAGAIN then (some .INTERNAL_SERVER_ERROR, c, s') else (some .BAD_REQUEST, c, s')
  | (.ok buf, s') =>
    let c := { (connNew : Conn α) with buffer := buf, bytesRead := buf.length }
    if buf.length = 0 then (some .BAD_REQUEST, c, s')
    else
      match processRequest rc c with
      | (some res, c) => (some res, c, s')
      | (none, c) => (none, { c with inMessage := c.bytesRead - c.messageStart }, s')

/-- `remaining` is an exact difference. In C it is a `ssize_t`, and the two
part where the difference falls below -2^63 (`Bugs.LengthOverflow`).
mirrors src/connection.c:307-334 -/
def connRecvFile (c : Conn α) (s : Src α) (fd : Dst α) : Option Response × Src α × Dst α :=
  let leftover :=
    if 0 < c.inMessage then (c.buffer.drop c.messageStart).take c.inMessage.toNat else []
  match (if 0 < c.inMessage then writeAll fd leftover else (.ok (), fd)) with
  | (.error _, fd') => (some .INTERNAL_SERVER_ERROR, s, fd')
  | (.ok (), fd') =>
    let remaining := c.contentLength - leftover.length
    if 0 < remaining then
      match passBytes s fd' remaining.toNat with
      | (.error _, s', fd'') => (some .INTERNAL_SERVER_ERROR, s', fd'')
      | (.ok _, s', fd'') => (none, s', fd'')
    else (none, s, fd')

/-- The text `conn_send_response` formats; it fits its buffers.
mirrors src/connection.c:357-366 -/
def responseText (res : Response) : Bytes :=
  let msg := responseGetMessage res
  let body := msg ++ ascii "\n"
  ascii "HTTP/1.1 " ++ decimal (responseGetCode res) ++ ascii " " ++ msg ++
    ascii "\r\nContent-Length: " ++ decimal body.length ++ ascii "\r\n\r\n" ++ body

/-- mirrors src/connection.c:338-340 -/
def fileHeader (count : Nat) : Bytes :=
  ascii "HTTP/1.1 " ++ decimal (responseGetCode .OK) ++ ascii " " ++ responseGetMessage .OK ++
    ascii "\r\nContent-Length: " ++ decimal count ++ ascii "\r\n\r\n"

/-- mirrors src/connection.c:356-373 -/
def connSendResponse (sock : Dst UInt8) (res : Response) : Option Response × Dst UInt8 :=
  match writeAll sock (responseText res) with
  | (.error _, sock') => (some .INTERNAL_SERVER_ERROR, sock')
  | (.ok (), sock') => (none, sock')

/-- `fd` is the open file.
mirrors src/connection.c:336-354 -/
def connSendFile (fd : Src UInt8) (sock : Dst UInt8) (count : Nat) :
    Option Response × Src UInt8 × Dst UInt8 :=
  match writeAll sock (fileHeader count) with
  | (.error _, sock') => (some .INTERNAL_SERVER_ERROR, fd, sock')
  | (.ok (), sock') =>
    if 0 < count then
      match passBytes fd sock' count with
      | (.error _, fd', sock'') => (some .INTERNAL_SERVER_ERROR, fd', sock'')
      | (.ok _, fd', sock'') => (none, fd', sock'')
    else (none, fd, sock')

end HttpC.L2
