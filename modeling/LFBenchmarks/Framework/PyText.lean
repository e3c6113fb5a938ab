import LFBenchmarks.Framework.Stdio

namespace LFBenchmarks.PyText

section Classes

/-- The code points `str.isspace` and `\s` accept. -/
def spaceCodes : List Nat :=
  [0x9, 0xa, 0xb, 0xc, 0xd, 0x1c, 0x1d, 0x1e, 0x1f, 0x20, 0x85, 0xa0, 0x1680, 0x2000, 0x2001,
    0x2002, 0x2003, 0x2004, 0x2005, 0x2006, 0x2007, 0x2008, 0x2009, 0x200a, 0x2028, 0x2029,
    0x202f, 0x205f, 0x3000]

/-- The zeros of the Unicode decimal digits; the digits 1 to 9 follow each of them. -/
def decimalZeros : List Nat :=
  [0x30, 0x660, 0x6f0, 0x7c0, 0x966, 0x9e6, 0xa66, 0xae6, 0xb66, 0xbe6, 0xc66, 0xce6, 0xd66,
    0xde6, 0xe50, 0xed0, 0xf20, 0x1040, 0x1090, 0x17e0, 0x1810, 0x1946, 0x19d0, 0x1a80, 0x1a90,
    0x1b50, 0x1bb0, 0x1c40, 0x1c50, 0xa620, 0xa8d0, 0xa900, 0xa9d0, 0xa9f0, 0xaa50, 0xabf0,
    0xff10, 0x104a0, 0x10d30, 0x11066, 0x110f0, 0x11136, 0x111d0, 0x112f0, 0x11450, 0x114d0,
    0x11650, 0x116c0, 0x11730, 0x118e0, 0x11950, 0x11c50, 0x11d50, 0x11da0, 0x11f50, 0x16a60,
    0x16ac0, 0x16b50, 0x1d7ce, 0x1d7d8, 0x1d7e2, 0x1d7ec, 0x1d7f6, 0x1e140, 0x1e2f0, 0x1e4f0,
    0x1e950, 0x1fbf0]

/-- The line boundaries of `str.splitlines`. -/
def boundaryCodes : List Nat :=
  [0xa, 0xb, 0xc, 0xd, 0x1c, 0x1d, 0x1e, 0x85, 0x2028, 0x2029]

def isSpace (c : Char) : Bool := c.toNat ∈ spaceCodes

def isBoundary (c : Char) : Bool := c.toNat ∈ boundaryCodes

/-- The value of a decimal digit, `\d`. -/
def decimal (c : Char) : Option Nat :=
  (decimalZeros.find? (fun z => z ≤ c.toNat ∧ c.toNat < z + 10)).map (c.toNat - ·)

def isDecimal (c : Char) : Bool := (decimal c).isSome

theorem isSpace_iff (c : Char) : isSpace c = true ↔ c.toNat ∈ spaceCodes := by
  unfold isSpace
  exact decide_eq_true_iff

/-- What holds of every white space character by its code holds of it. -/
theorem space_cases {P : Char → Prop} (h : ∀ n ∈ spaceCodes, P (Char.ofNat n)) (c : Char)
    (hc : isSpace c = true) : P c := by
  rw [← Char.ofNat_toNat c]
  exact h c.toNat ((isSpace_iff c).mp hc)

theorem not_decimal_of_space (c : Char) (h : isSpace c = true) : isDecimal c = false :=
  space_cases (P := fun c => isDecimal c = false) (by decide +kernel) c h

end Classes

section Reading

/-- Text mode: every line ending is read as `\n`. -/
def universalNewlines : List Char → List Char
  | [] => []
  | '\r' :: '\n' :: s => '\n' :: universalNewlines s
  | c :: s => (if c = '\r' then '\n' else c) :: universalNewlines s

/-- `str.splitlines`, on text that has gone through text mode: the lines without their ends. -/
def splitlines (text : List Char) : List (List Char) :=
  let pieces := text.splitOnP isBoundary
  if pieces.getLast? = some [] then pieces.dropLast else pieces

/-- `str.split`: the words between white space. -/
def split (line : List Char) : List (List Char) :=
  (line.splitOnP isSpace).filter (fun word => word ≠ [])

end Reading

section Conversion

/-- `int` of a signed sequence of digits. More than 4300 digits are a `ValueError`. -/
def int (text : List Char) : Option Int :=
  let (negative, digits) := Stdio.scanSign text
  if digits = [] ∨ 4300 < digits.length then none
  else (digits.mapM decimal).map fun ds =>
    let n := ds.foldl (fun n d => 10 * n + d) 0
    if negative then -(n : Int) else n

/-- `float` of a decimal literal, exactly, or nothing for a `ValueError`. -/
def float (text : List Char) : Option Rat :=
  let (negative, t) := Stdio.scanSign text
  match Stdio.scanNumber Char.isDigit 10 10 'e' t with
  | some (q, []) => some (if negative then -q else q)
  | _ => none

end Conversion

end LFBenchmarks.PyText
