import RedisLike.Bytes

/-!
# RedisLike.Resp.Codec

The codec of `resp_codec.h` and `resp_codec.cpp`: the replies the server
writes, and `Feed`, which cuts the byte stream of a client, or of the log,
into commands.

`Feed` works on positions in `read_buf_`, as the source does.  `pos + bulk_len
+ 2` is a sum of `size_t` values and is taken modulo `2 ^ 64`; the main loop is
bounded by the length of the buffer, since each round moves `pos`.
-/

namespace RedisLike

/-- `RespCommand`. -/
structure RespCommand where
  name : Bytes
  args : List Bytes
deriving DecidableEq

namespace RespCodec

/-! ## Serializers -/

/-- `RespCodec::SimpleString`. -/
def simpleString (s : Bytes) : Bytes := ascii "+" ++ s ++ crlf

/-- `RespCodec::Error`. -/
def error (msg : Bytes) : Bytes := ascii "-" ++ msg ++ crlf

/-- `RespCodec::Integer`. -/
def integer (n : Int) : Bytes := ascii ":" ++ intToDecimal n ++ crlf

/-- `RespCodec::BulkString`. -/
def bulkString (s : Bytes) : Bytes := ascii "$" ++ toDecimal s.length ++ crlf ++ s ++ crlf

/-- `RespCodec::NullBulkString`. -/
def nullBulkString : Bytes := ascii "$-1\r\n"

/-- `RespCodec::Array`. -/
def array (items : List Bytes) : Bytes :=
  ascii "*" ++ toDecimal items.length ++ crlf ++ items.flatten

/-- `RespCodec::Ok`. -/
def ok : Bytes := simpleString (ascii "OK")

/-- `RespCodec::Pong`. -/
def pong : Bytes := bulkString (ascii "PONG")

/-- `RespCodec::EmptyArray`. -/
def emptyArray : Bytes := array []

end RespCodec

/-! ## The parser -/

/-- `'*'`, in front of an array. -/
def star : UInt8 := 42

/-- `'$'`, in front of a bulk string. -/
def dollar : UInt8 := 36

/-- The bytes of `s` before its first `"\r\n"`, and what follows it. -/
def splitLine : Bytes → Option (Bytes × Bytes)
  | [] => none
  | [_] => none
  | a :: b :: rest =>
    if a = cr ∧ b = lf then some ([], rest)
    else (splitLine (b :: rest)).map fun (line, rest) => (a :: line, rest)

/-- `ReadLine`: the line from `pos` to the next `"\r\n"`, and the position
behind it. -/
def readLine (buf : Bytes) (pos : Nat) : Option (Bytes × Nat) :=
  (splitLine (buf.drop pos)).map fun (line, _) => (line, pos + line.length + 2)

/-- One round of the element loop of `Feed`; `none` is `ok = false`. -/
def readToken (buf : Bytes) (pos : Nat) : Option (Bytes × Nat) :=
  if pos ≥ buf.length ∨ buf.getD pos 0 ≠ dollar then none
  else
    match readLine buf (pos + 1) with
    | none => none
    | some (line, pos) =>
      let bulkLen := (max 0 (strtoll line).1).toNat
      if (pos + bulkLen + 2) % 2 ^ 64 > buf.length then none
      else
        let token := (buf.drop pos).take bulkLen
        let pos := pos + bulkLen
        if pos + 1 < buf.length ∧ buf.getD pos 0 = cr ∧ buf.getD (pos + 1) 0 = lf then
          some (token, pos + 2)
        else some (token, pos)

/-- The element loop of `Feed`. -/
def readTokens (buf : Bytes) : Nat → Nat → Option (List Bytes × Nat)
  | 0, pos => some ([], pos)
  | n + 1, pos =>
    match readToken buf pos with
    | none => none
    | some (token, pos) =>
      (readTokens buf n pos).map fun (tokens, pos) => (token :: tokens, pos)

/-- The command of the elements of a frame: the first is the name. -/
def toCommand (tokens : List Bytes) : RespCommand := ⟨tokens.headD [], tokens.tail⟩

/-- The main loop of `Feed` from `pos`: the commands, and the position where it
stops. -/
def feedLoop (buf : Bytes) : Nat → Nat → List RespCommand × Nat
  | 0, pos => ([], pos)
  | fuel + 1, pos =>
    if pos ≥ buf.length then ([], pos)
    else if buf.getD pos 0 ≠ star then feedLoop buf fuel (pos + 1)
    else
      match readLine buf (pos + 1) with
      | none => ([], pos)
      | some (line, next) =>
        let arrayLen := (strtoll line).1
        -- an array length that is out of range: only the header is skipped
        if arrayLen ≤ 0 ∨ arrayLen > 256 then feedLoop buf fuel next
        else
          match readTokens buf arrayLen.toNat next with
          | none => ([], pos)
          | some (tokens, next) =>
            let r := feedLoop buf fuel next
            (toCommand tokens :: r.1, r.2)

/-- `RespCodec`, with the bytes that are not yet a command. -/
structure RespCodec where
  readBuf : Bytes := []
deriving DecidableEq

namespace RespCodec

/-- `RespCodec::Feed`. -/
def feed (codec : RespCodec) (data : Bytes) : List RespCommand × RespCodec :=
  let buf := codec.readBuf ++ data
  let r := feedLoop buf buf.length 0
  (r.1, ⟨buf.drop r.2⟩)

/-- Feeding chunks one after another. -/
def feedChunks (codec : RespCodec) : List Bytes → List RespCommand × RespCodec
  | [] => ([], codec)
  | chunk :: chunks =>
    let r := codec.feed chunk
    let t := r.2.feedChunks chunks
    (r.1 ++ t.1, t.2)

end RespCodec

end RedisLike
