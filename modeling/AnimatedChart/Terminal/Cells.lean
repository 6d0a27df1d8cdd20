import AnimatedChart.Text.Printable

/-!
# Cells of a terminal

How many cells of a terminal a line takes. Most characters take one; East Asian ones and many pictographs take two;
controls and marks that belong to the character before them take none.
-/

namespace AnimatedChart.Terminal

open Text

/-! ## Characters -/

def wideRuns : List Nat := [
  4352, 96, 4538, 2, 13, 2, 190, 4, 3, 1, 2, 1, 521, 2, 21, 2, 50, 12, 43, 1, 19, 1, 13, 1, 8, 2, 17, 2, 5, 2, 8,
  1, 5, 1, 21, 1, 7, 2, 1, 1, 4, 1, 2, 1, 7, 1, 4, 2, 28, 1, 35, 1, 1, 1, 4, 3, 1, 1, 61, 3, 24, 1, 14, 1, 859, 2,
  51, 1, 4, 1, 810, 26, 1, 89, 12, 214, 26, 12, 4, 63, 2, 86, 2, 103, 5, 43, 1, 94, 1, 84, 12, 47, 1, 40, 8, 7024,
  64, 22157, 3, 55, 1177, 29, 643, 11172, 8540, 512, 784, 10, 22, 35, 1, 19, 1, 4, 149, 96, 127, 7, 28665, 5, 11,
  2, 14, 6136, 8, 1238, 42, 9, 8935, 4, 1, 7, 1, 2, 1, 291, 15, 1, 29, 3, 2, 1, 14, 4, 8, 396, 15624, 1, 202, 1,
  190, 1, 2, 10, 101, 3, 13, 44, 4, 9, 7, 2, 14, 6, 154, 33, 12, 9, 1, 70, 1, 22, 12, 43, 4, 5, 12, 17, 3, 1, 3,
  71, 1, 1, 1, 187, 2, 63, 13, 4, 1, 24, 18, 1, 26, 2, 13, 1, 86, 85, 48, 70, 6, 1, 3, 3, 2, 3, 4, 4, 11, 2, 7, 9,
  227, 12, 4, 1, 283, 47, 1, 10, 1, 185, 112, 13, 3, 9, 7, 46, 1, 7, 8, 14, 4, 9, 7, 9, 1287, 65534, 2, 65534]

/-- The runs of characters that take no cell: controls, marks that
belong to the character before them, and joiners. -/
def emptyRuns : List Nat := [
  0, 32, 95, 33, 13, 1, 594, 112, 275, 7, 263, 45, 1, 1, 1, 2, 1, 2, 1, 1, 72, 11, 1, 1, 46, 21, 16, 1, 101, 7, 2,
  6, 2, 2, 1, 4, 35, 1, 30, 27, 91, 11, 58, 9, 9, 1, 24, 4, 1, 9, 1, 3, 1, 5, 43, 3, 60, 8, 42, 24, 1, 32, 55, 1,
  1, 1, 4, 8, 4, 1, 3, 7, 10, 2, 29, 1, 58, 1, 1, 1, 2, 4, 8, 1, 9, 1, 10, 2, 26, 1, 2, 2, 57, 1, 4, 2, 4, 2, 2, 3,
  3, 1, 30, 2, 3, 1, 11, 2, 57, 1, 4, 5, 1, 2, 4, 1, 20, 2, 22, 6, 1, 1, 58, 1, 1, 2, 1, 4, 8, 1, 7, 3, 10, 2, 30,
  1, 59, 1, 1, 1, 12, 1, 9, 1, 40, 1, 3, 1, 55, 1, 1, 3, 5, 3, 1, 4, 7, 2, 11, 2, 29, 1, 58, 1, 2, 1, 2, 1, 3, 1,
  5, 2, 7, 2, 11, 2, 28, 2, 57, 2, 1, 1, 2, 4, 8, 1, 9, 1, 10, 2, 29, 1, 72, 1, 4, 1, 2, 3, 1, 1, 8, 1, 81, 1, 2,
  7, 12, 8, 98, 1, 2, 9, 11, 7, 73, 2, 27, 1, 1, 1, 1, 1, 55, 14, 1, 5, 1, 2, 5, 11, 1, 36, 9, 1, 102, 4, 1, 6, 1,
  2, 2, 2, 25, 2, 4, 3, 16, 4, 13, 1, 2, 2, 6, 1, 15, 1, 703, 3, 946, 3, 29, 2, 30, 2, 30, 2, 64, 2, 1, 7, 8, 1, 2,
  11, 9, 1, 45, 5, 117, 2, 34, 1, 118, 3, 4, 2, 9, 1, 6, 3, 219, 2, 2, 1, 58, 1, 1, 7, 1, 1, 1, 1, 2, 8, 6, 10, 2,
  1, 48, 31, 49, 4, 48, 7, 1, 1, 5, 1, 40, 9, 12, 2, 32, 4, 2, 2, 1, 3, 56, 1, 1, 2, 3, 1, 1, 3, 58, 8, 2, 2, 152,
  3, 1, 13, 1, 7, 4, 1, 6, 1, 3, 2, 198, 64, 523, 5, 24, 7, 49, 16, 96, 33, 3070, 3, 141, 1, 96, 32, 554, 6, 105,
  2, 30164, 4, 1, 10, 32, 2, 80, 2, 272, 1, 3, 1, 4, 1, 25, 2, 5, 1, 151, 2, 26, 18, 13, 1, 38, 8, 25, 11, 46, 3,
  48, 1, 2, 4, 2, 2, 39, 1, 67, 6, 2, 2, 2, 2, 12, 1, 8, 1, 47, 1, 51, 1, 1, 3, 2, 2, 5, 2, 1, 1, 42, 2, 8, 1, 238,
  1, 2, 1, 4, 1, 20272, 1, 737, 16, 16, 16, 207, 1, 158, 2, 80, 12, 513, 1, 226, 1, 149, 5, 1670, 3, 1, 2, 5, 4,
  40, 3, 4, 1, 165, 2, 573, 4, 387, 2, 80, 3, 70, 11, 49, 4, 123, 1, 54, 15, 41, 1, 2, 2, 10, 3, 49, 4, 2, 2, 7, 1,
  61, 3, 36, 5, 1, 8, 62, 1, 12, 2, 52, 9, 10, 4, 2, 1, 95, 3, 2, 1, 1, 2, 6, 1, 2, 1, 157, 1, 3, 8, 21, 2, 57, 2,
  1, 1, 1, 1, 22, 1, 14, 7, 3, 5, 195, 8, 2, 3, 1, 1, 23, 1, 81, 1, 2, 6, 1, 1, 2, 1, 1, 2, 1, 2, 235, 1, 2, 4, 6,
  2, 1, 2, 27, 2, 85, 8, 2, 1, 1, 2, 106, 1, 1, 1, 2, 6, 1, 1, 101, 3, 2, 4, 1, 5, 259, 9, 1, 2, 245, 1, 10, 2, 1,
  1, 4, 1, 144, 4, 2, 2, 4, 1, 32, 10, 40, 6, 2, 4, 8, 1, 9, 6, 2, 3, 46, 13, 1, 2, 406, 7, 1, 6, 1, 1, 82, 22, 2,
  7, 1, 2, 1, 2, 122, 6, 3, 1, 1, 2, 1, 7, 1, 1, 72, 2, 3, 1, 1, 1, 347, 2, 11, 2, 52, 5, 5, 1, 1, 1, 5357, 17, 6,
  15, 13978, 5, 59, 7, 1048, 1, 63, 4, 81, 1, 19640, 2, 1, 4, 4700, 46, 2, 23, 542, 1, 1, 3, 4, 21, 2, 7, 30, 4,
  148, 3, 1979, 55, 4, 50, 8, 1, 14, 1, 22, 5, 1, 15, 1360, 7, 1, 17, 2, 7, 1, 2, 1, 5, 100, 1, 160, 7, 375, 1, 61,
  4, 508, 4, 992, 7, 109, 7, 2736, 5, 789504, 4096]

def pictographRuns : List Nat := [
  169, 1, 4, 1, 8077, 1, 12, 1, 216, 1, 22, 1, 90, 6, 15, 2, 367, 2, 12, 1, 95, 1, 70, 1, 25, 11, 4, 3, 199, 1,
  231, 2, 10, 1, 9, 1, 58, 4, 1, 6, 1, 12, 1, 114, 10, 118, 2, 11, 1, 1, 1, 1, 6, 1, 3, 1, 6, 1, 10, 2, 15, 1, 2,
  1, 4, 1, 1, 1, 4, 3, 1, 1, 11, 5, 45, 3, 9, 1, 14, 1, 14, 1, 372, 2, 463, 3, 19, 2, 51, 1, 4, 1, 1242, 1, 12, 1,
  601, 1, 1, 1, 114022, 256, 13, 3, 31, 1, 60, 6, 12, 2, 14, 1, 2, 10, 18, 57, 27, 15, 10, 1, 20, 1, 2, 9, 1, 4, 9,
  434, 5, 318, 8, 266, 48, 128, 116, 12, 85, 43, 12, 4, 56, 8, 10, 6, 40, 8, 30, 82, 12, 47, 1, 10, 1, 441, 256,
  1022]

def plainPictographs : List Nat := [0x3030, 0x303D, 0x3297, 0x3299, 0x1F202, 0x1F237]

def isWithin (ranges : List (Nat × Nat)) (c : Char) : Bool := ranges.any fun r => r.1 ≤ c.toNat && c.toNat ≤ r.2

def isPictograph (c : Char) : Bool := inRuns pictographRuns c.toNat

def isCountryLetter (c : Char) : Bool := isWithin [(0x1F1E6, 0x1F1FF)] c

def isOpening (c : Char) : Bool := isWithin [(0x1100, 0x115F), (0xA960, 0xA97C)] c

def isFollowing (c : Char) : Bool := isWithin [(0x1160, 0x11FF), (0xD7B0, 0xD7C6), (0xD7CB, 0xD7FB)] c

def isSyllable (c : Char) : Bool := isWithin [(0xAC00, 0xD7A3)] c

def joiner : Char := Char.ofNat 0x200D

def asText : Char := Char.ofNat 0xFE0E

def asPicture : Char := Char.ofNat 0xFE0F

def charCells (c : Char) : Nat :=
  if inRuns emptyRuns c.toNat then 0
  else if isCountryLetter c then 2
  else if plainPictographs.contains c.toNat then 1
  else if c.toNat = 0x2E3A then 3
  else if c.toNat = 0x2E3B then 4
  else if inRuns wideRuns c.toNat then 2
  else 1

/-! ## Signs -/

/-- Characters that make one sign together, as far as they are read. -/
inductive Sign where
  | complete (cells : Nat)
  /-- A pictograph. After a joiner it takes the next one in. -/
  | pictograph (cells : Nat) (joined : Bool)
  | country
  /-- A syllable; it is open as long as only opening consonants were read. -/
  | syllable (isOpen : Bool)
deriving Repr, DecidableEq, Inhabited

namespace Sign

def cells : Sign → Nat
  | complete n => n
  | pictograph n _ => n
  | country => 2
  | syllable _ => 2

def start (c : Char) : Sign :=
  if isPictograph c then .pictograph (charCells c) false
  else if isCountryLetter c then .country
  else if isOpening c then .syllable true
  else .complete (charCells c)

def with? (s : Sign) (c : Char) : Option Sign :=
  match s with
  | complete _ => none
  | pictograph n joined =>
    if c = asPicture then some (.pictograph 2 false)
    else if c = asText then some (.pictograph 1 false)
    else if c = joiner then some (.pictograph n true)
    else if charCells c = 0 || (joined && isPictograph c) then some (.pictograph n false)
    else none
  | country => if isCountryLetter c then some (.complete 2) else none
  | syllable isOpen =>
    if isOpen && isOpening c then some (.syllable true)
    else if isFollowing c || (isOpen && isSyllable c) then some (.syllable false)
    else none

end Sign

def cellsFrom (s : Sign) : List Char → Nat
  | [] => s.cells
  | c :: cs =>
    match s.with? c with
    | some s => cellsFrom s cs
    | none => s.cells + cellsFrom (.start c) cs

def cells (s : String) : Nat := cellsFrom (.complete 0) s.toList

end AnimatedChart.Terminal
