/-!
# UTF-8 with repair

`repair` reads bytes as UTF-8 and puts U+FFFD for every maximal ill-formed part: the longest run of
bytes that begins a well-formed sequence without completing it, or else a single byte. `bytes` is the
well-formed direction.
-/

namespace Bundler.Text.Utf8

/-- The bytes of one character. -/
def bytesOf (c : Char) : List Nat :=
  let n := c.toNat
  if n < 0x80 then [n]
  else if n < 0x800 then [0xc0 + n / 64, 0x80 + n % 64]
  else if n < 0x10000 then [0xe0 + n / 4096, 0x80 + n / 64 % 64, 0x80 + n % 64]
  else [0xf0 + n / 262144, 0x80 + n / 4096 % 64, 0x80 + n / 64 % 64, 0x80 + n % 64]

def bytes (cs : List Char) : List Nat :=
  cs.flatMap bytesOf

/-- How many bytes follow a first byte, the bits it gives, and the range of the second byte. -/
structure Lead where
  follow : Nat
  bits : Nat
  secondFrom : Nat := 0x80
  secondTo : Nat := 0xbf

/-- The second byte's range keeps out overlong forms, surrogates and values above U+10FFFF. -/
def Lead.of? (b : Nat) : Option Lead :=
  if b < 0x80 then some ⟨0, b, 0x80, 0xbf⟩
  else if b < 0xc2 then none
  else if b < 0xe0 then some ⟨1, b - 0xc0, 0x80, 0xbf⟩
  else if b < 0xf0 then some ⟨2, b - 0xe0, if b = 0xe0 then 0xa0 else 0x80, if b = 0xed then 0x9f else 0xbf⟩
  else if b < 0xf5 then some ⟨3, b - 0xf0, if b = 0xf0 then 0x90 else 0x80, if b = 0xf4 then 0x8f else 0xbf⟩
  else none

/-- Reads the bytes still owed to a character whose bits so far are `bits`; on a byte out of range the
character is replaced and that byte is read anew. -/
def owed : Nat → Nat → Nat → Nat → List Nat → Char × List Nat
  | 0, bits, _, _, bs => (Char.ofNat bits, bs)
  | _ + 1, _, _, _, [] => ('\uFFFD', [])
  | n + 1, bits, lo, hi, b :: bs =>
    if lo ≤ b ∧ b ≤ hi then owed n (bits * 64 + (b - 0x80)) 0x80 0xbf bs else ('\uFFFD', b :: bs)

theorem owed_length_le : ∀ n bits lo hi bs, (owed n bits lo hi bs).2.length ≤ bs.length
  | 0, _, _, _, _ => by simp [owed]
  | _ + 1, _, _, _, [] => by simp [owed]
  | n + 1, bits, lo, hi, b :: bs => by
    unfold owed
    split
    · exact Nat.le_succ_of_le (owed_length_le ..)
    · simp

/-- The text of a byte sequence, ill-formed parts replaced. -/
def repair : List Nat → List Char
  | [] => []
  | b :: bs =>
    match Lead.of? b with
    | none => '\uFFFD' :: repair bs
    | some l =>
      let r := owed l.follow l.bits l.secondFrom l.secondTo bs
      r.1 :: repair r.2
termination_by bs => bs.length
decreasing_by
  · simp
  · simpa using Nat.lt_succ_of_le (owed_length_le ..)

end Bundler.Text.Utf8
