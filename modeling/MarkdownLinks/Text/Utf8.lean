import MarkdownLinks.Text.Basic

/-!
# UTF-8

Files hold bytes. `decode` accepts well-formed UTF-8 only: shortest forms, no surrogates, nothing above
the last code point.
-/

namespace MarkdownLinks.Utf8

/-- The continuation byte that carries the last six bits of a number. -/
def tailByte (n : Nat) : UInt8 := UInt8.ofNat (0x80 + n % 64)

def encodeChar (c : Char) : List UInt8 :=
  let n := c.toNat
  if n < 0x80 then [UInt8.ofNat n]
  else if n < 0x800 then [UInt8.ofNat (0xC0 + n / 64), tailByte n]
  else if n < 0x10000 then [UInt8.ofNat (0xE0 + n / 4096), tailByte (n / 64), tailByte n]
  else [UInt8.ofNat (0xF0 + n / 262144), tailByte (n / 4096), tailByte (n / 64), tailByte n]

def encode (t : Text) : List UInt8 := t.flatMap encodeChar

def tailBits? (b : UInt8) : Option Nat := if b.toNat / 64 = 2 then some (b.toNat % 64) else none

/-- The character at the start of some bytes, and how many of them it takes. -/
def readChar? : List UInt8 → Option (Char × Nat)
  | [] => none
  | a :: t => do
    let n := a.toNat
    let within (low high k : Nat) (length : Nat) : Option (Char × Nat) :=
      if low ≤ k && k ≤ high && !(0xD800 ≤ k && k ≤ 0xDFFF) then some (Char.ofNat k, length) else none
    if n < 0x80 then some (Char.ofNat n, 1)
    else if n / 32 = 6 then
      match t with
      | b :: _ => within 0x80 0x7FF (n % 32 * 64 + (← tailBits? b)) 2
      | _ => none
    else if n / 16 = 14 then
      match t with
      | b :: c :: _ => within 0x800 0xFFFF ((n % 16 * 64 + (← tailBits? b)) * 64 + (← tailBits? c)) 3
      | _ => none
    else if n / 8 = 30 then
      match t with
      | b :: c :: d :: _ =>
        let high := (n % 8 * 64 + (← tailBits? b)) * 64 + (← tailBits? c)
        within 0x10000 0x10FFFF (high * 64 + (← tailBits? d)) 4
      | _ => none
    else none

def decode (bytes : List UInt8) : Option Text := go 0 bytes
where
  go (skip : Nat) : List UInt8 → Option Text
    | [] => some []
    | a :: t =>
      if skip > 0 then go (skip - 1) t
      else match readChar? (a :: t) with
        | some (c, n) => (go (n - 1) t).map (c :: ·)
        | none => none

end MarkdownLinks.Utf8
