/-! Octets as text. Decoding accepts well-formed UTF-8 only, so neither overlong forms nor
surrogates, and on failure it says how many octets stand before the first ill-formed sequence. -/
namespace FieldProcedure.Text.Utf8

def isTail (b : UInt8) : Bool := 0x80 ≤ b && b ≤ 0xBF

/-- The octets that may follow a lead octet at once. The narrow cases keep out overlong forms,
surrogates and code points above U+10FFFF. -/
def secondOk (lead b : UInt8) : Bool :=
  if lead = 0xE0 then 0xA0 ≤ b && b ≤ 0xBF
  else if lead = 0xED then 0x80 ≤ b && b ≤ 0x9F
  else if lead = 0xF0 then 0x90 ≤ b && b ≤ 0xBF
  else if lead = 0xF4 then 0x80 ≤ b && b ≤ 0x8F
  else isTail b

def bits (b : UInt8) : Nat := b.toNat % 64

def char? : List UInt8 → Option (Char × List UInt8)
  | [] => none
  | a :: r =>
    if a < 0x80 then some (Char.ofNat a.toNat, r)
    else if 0xC2 ≤ a && a ≤ 0xDF then
      match r with
      | b :: r =>
        if isTail b then some (Char.ofNat ((a.toNat - 0xC0) * 64 + bits b), r) else none
      | [] => none
    else if 0xE0 ≤ a && a ≤ 0xEF then
      match r with
      | b :: c :: r =>
        if secondOk a b && isTail c then
          some (Char.ofNat ((a.toNat - 0xE0) * 4096 + bits b * 64 + bits c), r)
        else none
      | _ => none
    else if 0xF0 ≤ a && a ≤ 0xF4 then
      match r with
      | b :: c :: d :: r =>
        if secondOk a b && isTail c && isTail d then
          some (Char.ofNat ((a.toNat - 0xF0) * 262144 + bits b * 4096 + bits c * 64 + bits d), r)
        else none
      | _ => none
    else none

def decodeFrom : Nat → List Char → List UInt8 → List Char × List UInt8
  | 0, acc, bs => (acc.reverse, bs)
  | fuel + 1, acc, bs =>
    match char? bs with
    | none => (acc.reverse, bs)
    | some (c, rest) => decodeFrom fuel (c :: acc) rest

def decodeAll (bs : List UInt8) : List Char × List UInt8 := decodeFrom bs.length [] bs

def decode (bs : List UInt8) : Except Nat String :=
  match decodeAll bs with
  | (cs, []) => .ok (String.ofList cs)
  | (_, rest) => .error (bs.length - rest.length)

def encode (s : String) : List UInt8 := s.toList.flatMap String.utf8EncodeChar

end FieldProcedure.Text.Utf8
