namespace CommentTags.Text.Utf8

inductive Fault where
  | invalidStart
  | invalidContinuation
  | unexpectedEnd
  deriving DecidableEq, Repr

def Fault.reason : Fault → String
  | invalidStart => "invalid start byte"
  | invalidContinuation => "invalid continuation byte"
  | unexpectedEnd => "unexpected end of data"

/-- How a sequence goes on after its first byte: how many bytes follow, and the range of the first
of them. The others are 80 to BF. -/
structure Lead where
  count : Nat
  low : UInt8
  high : UInt8

def lead? (b : UInt8) : Option Lead :=
  if 0xC2 ≤ b ∧ b ≤ 0xDF then some ⟨1, 0x80, 0xBF⟩
  else if b = 0xE0 then some ⟨2, 0xA0, 0xBF⟩
  else if b = 0xED then some ⟨2, 0x80, 0x9F⟩
  else if 0xE1 ≤ b ∧ b ≤ 0xEF then some ⟨2, 0x80, 0xBF⟩
  else if b = 0xF0 then some ⟨3, 0x90, 0xBF⟩
  else if b = 0xF4 then some ⟨3, 0x80, 0x8F⟩
  else if 0xF1 ≤ b ∧ b ≤ 0xF3 then some ⟨3, 0x80, 0xBF⟩
  else none

/-- The bytes at the beginning of `bs`, at most `count`, that continue a sequence. -/
def continuation : (count : Nat) → (low high : UInt8) → List UInt8 → List UInt8
  | 0, _, _, _ => []
  | _, _, _, [] => []
  | n + 1, low, high, b :: bs =>
    if low ≤ b ∧ b ≤ high then b :: continuation n 0x80 0xBF bs else []

def codePoint (b : UInt8) (ks : List UInt8) : Nat :=
  ks.foldl (fun n k => n * 64 + k.toNat % 64) (b.toNat % (64 >>> ks.length))

/-- What stands at the beginning of a byte string that starts with a given byte. -/
inductive Head where
  | char (c : Char) (more : Nat)
  | incomplete
  /-- No character. The offending range goes on for `more` bytes after the first. -/
  | invalid (more : Nat) (fault : Fault)

def head (b : UInt8) (bs : List UInt8) : Head :=
  if b < 0x80 then .char (Char.ofNat b.toNat) 0
  else
    match lead? b with
    | none => .invalid 0 .invalidStart
    | some l =>
      let ks := continuation l.count l.low l.high bs
      if ks.length = l.count then .char (Char.ofNat (codePoint b ks)) l.count
      else if ks.length = bs.length then .incomplete
      else .invalid ks.length .invalidContinuation

structure DecodeError where
  position : Nat
  bytes : List UInt8
  fault : Fault
  deriving DecidableEq, Repr

/-- The first two bytes of a surrogate. At the end of a chunk they are kept back and not refused,
although no byte can complete them. -/
def isHalfSurrogate : List UInt8 → Bool
  | [a, b] => a = 0xED && 0xA0 ≤ b && b ≤ 0xBF
  | _ => false

/-- Decode up to the end, or up to an incomplete sequence at the end, which is returned with the
characters. Positions count from `pos` on. -/
def decode (pos : Nat) : List UInt8 → Except DecodeError (List Char × List UInt8)
  | [] => .ok ([], [])
  | b :: bs =>
    if isHalfSurrogate (b :: bs) then .ok ([], b :: bs) else
    match head b bs with
    | .char c more => (decode (pos + more + 1) (bs.drop more)).map fun r => (c :: r.1, r.2)
    | .incomplete => .ok ([], b :: bs)
    | .invalid more fault => .error ⟨pos, b :: bs.take more, fault⟩
termination_by bs => bs.length
decreasing_by simp only [List.length_drop, List.length_cons]; omega

def endError : List UInt8 → DecodeError
  | [] => ⟨0, [], .unexpectedEnd⟩
  | b :: bs =>
    match head b bs with
    | .invalid more fault => ⟨0, b :: bs.take more, fault⟩
    | _ => ⟨0, b :: bs, .unexpectedEnd⟩

/-- Decode with U+FFFD in the place of each range that cannot be decoded. -/
def decodeLossy : List UInt8 → List Char
  | [] => []
  | b :: bs =>
    match head b bs with
    | .char c more => c :: decodeLossy (bs.drop more)
    | .incomplete => ['\ufffd']
    | .invalid more _ => '\ufffd' :: decodeLossy (bs.drop more)
termination_by bs => bs.length
decreasing_by all_goals simp only [List.length_drop, List.length_cons]; omega

end CommentTags.Text.Utf8
