import LspGraph.RustText
import LspGraph.Values

/-! Content-Length framing for JSON-RPC over stdio (`transport/codec.rs`). -/
namespace LspGraph
open RustText

def strBytes (s : String) : Bytes := s.toUTF8.data.toList

def crlfcrlf : Bytes := [13, 10, 13, 10]

/-- Frame a payload with an LSP `Content-Length` header. -/
def encode (payload : Bytes) : Bytes :=
  strBytes ("Content-Length: " ++ payload.length.repr ++ "\r\n\r\n") ++ payload

/-- The byte ranges that may follow a first byte in well-formed UTF-8. -/
def utf8Continuation (b : UInt8) : Option (List (UInt8 × UInt8)) :=
  if b < 0x80 then some []
  else if 0xC2 ≤ b ∧ b ≤ 0xDF then some [(0x80, 0xBF)]
  else if b = 0xE0 then some [(0xA0, 0xBF), (0x80, 0xBF)]
  else if b = 0xED then some [(0x80, 0x9F), (0x80, 0xBF)]
  else if 0xE1 ≤ b ∧ b ≤ 0xEF then some [(0x80, 0xBF), (0x80, 0xBF)]
  else if b = 0xF0 then some [(0x90, 0xBF), (0x80, 0xBF), (0x80, 0xBF)]
  else if 0xF1 ≤ b ∧ b ≤ 0xF3 then some [(0x80, 0xBF), (0x80, 0xBF), (0x80, 0xBF)]
  else if b = 0xF4 then some [(0x80, 0x8F), (0x80, 0xBF), (0x80, 0xBF)]
  else none

/-- Where UTF-8 validation stops: the index up to which the input was valid, and the length of
the ill-formed sequence there, absent where the input ended inside a sequence. -/
def utf8Scan (index start : Nat) : List (UInt8 × UInt8) → Bytes → Option (Nat × Option Nat)
  | [], [] => none
  | _ :: _, [] => some (start, none)
  | [], b :: bs =>
    match utf8Continuation b with
    | some ranges => utf8Scan (index + 1) index ranges bs
    | none => some (index, some 1)
  | (lo, hi) :: ranges, b :: bs =>
    if lo ≤ b ∧ b ≤ hi then utf8Scan (index + 1) start ranges bs
    else some (start, some (index - start))

/-- The `Display` text of `Utf8Error`. -/
def utf8Error (bs : Bytes) : String :=
  match utf8Scan 0 0 [] bs with
  | some (validUpTo, some errorLen) =>
    "invalid utf-8 sequence of " ++ errorLen.repr ++ " bytes from index " ++ validUpTo.repr
  | some (validUpTo, none) => "incomplete utf-8 byte sequence from index " ++ validUpTo.repr
  | none => ""

/-- `std::str::from_utf8`, giving the characters of the string. -/
def fromUtf8 (bs : Bytes) : Except String (List Char) :=
  match ByteArray.utf8Decode? ⟨bs.toArray⟩ with
  | some cs => .ok cs.toList
  | none => .error (utf8Error bs)

/-- The position of the first occurrence of `needle`. -/
def findSubslice : (haystack needle : Bytes) → Option Nat
  | [], _ => none
  | b :: bs, needle =>
    if needle.isPrefixOf (b :: bs) then some 0 else (findSubslice bs needle).map (· + 1)

/-- The loop over the header lines: the last `content-length` line decides, a value that does
not parse included; a line without a colon ends the loop and is returned as the error. -/
def scanHeader : List (List Char) → Option Nat → Except (List Char) (Option Nat)
  | [], len => .ok len
  | line :: lines, len =>
    if line = [] then scanHeader lines len
    else match splitOnce ':' line with
      | some (k, v) =>
        if eqIgnoreAsciiCase (trim k) "content-length".toList then
          scanHeader lines (parseUsize (trim v))
        else scanHeader lines len
      | none => .error line

/-- Incremental decoder. Bytes arrive in arbitrary chunks; messages come out whole. -/
structure Decoder where
  buf : Bytes
  deriving DecidableEq

namespace Decoder

def new : Decoder := ⟨[]⟩

def push (d : Decoder) (bytes : Bytes) : Decoder := ⟨d.buf ++ bytes⟩

/-- `next_message`; `none` where the code panics. It does so where `body_start + len` leaves
the range of `usize`: with overflow checks on the addition panics, without them the wrapped sum
is below `body_start` and the slice does. -/
def nextMessage (d : Decoder) : Option (Result (Option Bytes) × Decoder) :=
  match findSubslice d.buf crlfcrlf with
  | none => some (.ok none, d)
  | some headerEnd =>
    match fromUtf8 (d.buf.take headerEnd) with
    | .error e =>
      some (.error (.protocol ("invalid UTF-8 in header: " ++ e)), ⟨d.buf.drop (headerEnd + 4)⟩)
    | .ok header =>
      match scanHeader (splitCrlf header) none with
      | .error line =>
        some (.error (.protocol ("header line without colon: " ++ String.ofList line)),
          ⟨d.buf.drop (headerEnd + 4)⟩)
      | .ok none =>
        some (.error (.protocol "no Content-Length header found"),
          ⟨d.buf.drop (headerEnd + 4)⟩)
      | .ok (some len) =>
        let bodyStart := headerEnd + 4
        -- the overflow of `body_start + len`
        if 2^64 ≤ bodyStart + len then none
        else if d.buf.length < bodyStart + len then some (.ok none, d)
        else some (.ok (some ((d.buf.take (bodyStart + len)).drop bodyStart)),
          ⟨d.buf.drop (bodyStart + len)⟩)

end Decoder

end LspGraph
