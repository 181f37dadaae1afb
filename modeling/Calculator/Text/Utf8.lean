/-!
# Characters from bytes

The first byte of a group says how many bytes the group takes, whatever those turn out to be. A
group that is the UTF-8 encoding of a character stands for it, and any other group for U+FFFD.

Whether a group is an encoding is settled by encoding again: the payload bits name a candidate,
and the group has to be exactly the candidate's encoding. That refuses overlong groups,
surrogates, numbers above U+10FFFF and bytes that continue nothing, with no rule for each.
-/

namespace Calculator.Utf8

/-- What stands for a group that is no encoding. -/
def replacement : Char := '\ufffd'

/-- How many bytes follow a first byte in its group. -/
def following (lead : UInt8) : Nat :=
  if lead < 0xc0 then 0
  else if lead < 0xe0 then 1
  else if lead < 0xf0 then 2
  else if lead < 0xf8 then 3
  else 0

/-- The number that the payload bits of a group spell. -/
def payload : List UInt8 → Nat
  | [a] => a.toNat
  | [a, b] => a.toNat % 32 * 64 + b.toNat % 64
  | [a, b, c] => (a.toNat % 16 * 64 + b.toNat % 64) * 64 + c.toNat % 64
  | [a, b, c, d] => ((a.toNat % 8 * 64 + b.toNat % 64) * 64 + c.toNat % 64) * 64 + d.toNat % 64
  | _ => 0

/-- The only character a group can be the encoding of. -/
def candidate (group : List UInt8) : Char := Char.ofNat (payload group)

/-- The character a group stands for. -/
def decode (group : List UInt8) : Char :=
  if String.utf8EncodeChar (candidate group) = group then candidate group else replacement

/-- The bytes of a text. -/
def encode (text : String) : List UInt8 := text.toList.flatMap String.utf8EncodeChar

/-- A character other than the replacement comes only from its own encoding. -/
theorem utf8EncodeChar_of_decode {group : List UInt8} {c : Char} (h : decode group = c)
    (hc : c ≠ replacement) : String.utf8EncodeChar c = group := by
  unfold decode at h
  split at h
  · next he => exact h ▸ he
  · exact absurd h.symm hc

end Calculator.Utf8
