import AnimatedChart.Text.Quoted

/-!
# Bytes of a text

The UTF-8 bytes of a text, and the text of some bytes. A byte that is no part of a character stands for the
replacement character.
-/

namespace AnimatedChart.Text

def bytes (s : String) : List UInt8 := s.toList.flatMap String.utf8EncodeChar

def isContinuation (b : UInt8) : Bool := 0x80 ≤ b && b ≤ 0xBF

def leadingChar? : List UInt8 → Option (Char × Nat)
  | [] => none
  | a :: rest =>
    let bits (b : UInt8) : Nat := b.toNat % 64
    if a < 0x80 then some (Char.ofNat a.toNat, 1)
    else
      match rest with
      | b :: rest =>
        if 0xC2 ≤ a && a ≤ 0xDF && isContinuation b then
          some (Char.ofNat (a.toNat % 32 * 64 + bits b), 2)
        else
          match rest with
          | c :: rest =>
            let n := a.toNat % 16 * 4096 + bits b * 64 + bits c
            if 0xE0 ≤ a && a ≤ 0xEF && isContinuation b && isContinuation c && 0x800 ≤ n
                && !(0xD800 ≤ n && n ≤ 0xDFFF) then some (Char.ofNat n, 3)
            else
              match rest with
              | d :: _ =>
                let n := a.toNat % 8 * 262144 + bits b * 4096 + bits c * 64 + bits d
                if 0xF0 ≤ a && a ≤ 0xF4 && isContinuation b && isContinuation c && isContinuation d
                    && 0x10000 ≤ n && n ≤ 0x10FFFF then some (Char.ofNat n, 4)
                else none
              | [] => none
          | [] => none
      | [] => none

def charsOfBytes : (skip : Nat) → List UInt8 → List Char
  | _, [] => []
  | skip + 1, _ :: bs => charsOfBytes skip bs
  | 0, b :: bs =>
    match leadingChar? (b :: bs) with
    | some (c, n) => c :: charsOfBytes (n - 1) bs
    | none => Char.ofNat 0xFFFD :: charsOfBytes 0 bs

def ofBytes (bs : List UInt8) : String := String.ofList (charsOfBytes 0 bs)

/-- Bytes between double quotes, `skip` of them being part of the last character. -/
def quotedBytes : (skip : Nat) → List UInt8 → List Char
  | _, [] => []
  | skip + 1, _ :: bs => quotedBytes skip bs
  | 0, b :: bs =>
    match leadingChar? (b :: bs) with
    | some (c, n) => quoteChar c ++ quotedBytes (n - 1) bs
    | none => '\\' :: 'x' :: hexDigits 2 b.toNat ++ quotedBytes 0 bs

def quoteBytes (bs : List UInt8) : String := String.ofList ('"' :: quotedBytes 0 bs ++ ['"'])

end AnimatedChart.Text
