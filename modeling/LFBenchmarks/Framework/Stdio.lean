import Mathlib

namespace LFBenchmarks.Stdio

/-- Up to `n` bytes, a `Char` for each, the last one the first newline if there is one among them. -/
def fgetsPiece : Nat → List Char → List Char × List Char
  | 0, s => ([], s)
  | _ + 1, [] => ([], [])
  | n + 1, c :: s =>
    if c = '\n' then ([c], s) else (c :: (fgetsPiece n s).1, (fgetsPiece n s).2)

/-- `fgets` into a buffer of `size` bytes: the bytes read and the rest of the stream, or
nothing at end of file. -/
def fgets (size : Nat) : List Char → Option (List Char × List Char)
  | [] => none
  | c :: s => some (fgetsPiece (size - 1) (c :: s))

def strcspn (buf reject : List Char) : Nat :=
  (buf.takeWhile (fun c => c ≠ '\x00' ∧ c ∉ reject)).length

/-- The C string left in `buf` once byte `n` is overwritten by a NUL. -/
def terminateAt (buf : List Char) (n : Nat) : List Char :=
  (buf.take n).takeWhile (· ≠ '\x00')

def isSpace (c : Char) : Bool := c ∈ [' ', '\t', '\n', '\x0b', '\x0c', '\r']

def skipSpace (s : List Char) : List Char := s.dropWhile isSpace

def digitValue (c : Char) : Nat :=
  if c.isDigit then c.toNat - '0'.toNat else c.toLower.toNat - 'a'.toNat + 10

def isHexDigit (c : Char) : Bool :=
  c.isDigit || ('a' ≤ c.toLower && c.toLower ≤ 'f')

def digitsValue (base : Nat) (ds : List Char) : Nat :=
  ds.foldl (fun n c => base * n + digitValue c) 0

def scanSign : List Char → Bool × List Char
  | '-' :: s => (true, s)
  | '+' :: s => (false, s)
  | s => (false, s)

/-- What a floating conversion stores: the exact number written, an infinity or a NaN. -/
inductive Double where
  | finite (q : Rat)
  | infinite (negative : Bool)
  | nan
  deriving DecidableEq

/-- Integer and fraction digits around an optional radix point, at least one of them. -/
def scanMantissa (isDigit : Char → Bool) (s : List Char) :
    Option (List Char × List Char × List Char) :=
  let int := s.takeWhile isDigit
  match s.dropWhile isDigit with
  | '.' :: t =>
    let frac := t.takeWhile isDigit
    if int = [] ∧ frac = [] then none else some (int, frac, t.dropWhile isDigit)
  | t => if int = [] then none else some (int, [], t)

/-- An optional exponent. Once its letter is read it belongs to the input item, so an
exponent without digits fails the whole conversion. -/
def scanExponent (letter : Char) : List Char → Option (Int × List Char)
  | [] => some (0, [])
  | c :: s =>
    if c.toLower = letter then
      let (negative, t) := scanSign s
      let ds := t.takeWhile Char.isDigit
      let n : Int := digitsValue 10 ds
      if ds = [] then none else some (if negative then -n else n, t.dropWhile Char.isDigit)
    else some (0, c :: s)

def scanNumber (isDigit : Char → Bool) (base expBase : Nat) (letter : Char) (s : List Char) :
    Option (Rat × List Char) := do
  let (int, frac, t) ← scanMantissa isDigit s
  let (e, rest) ← scanExponent letter t
  let mantissa : Rat := digitsValue base (int ++ frac) / base ^ frac.length
  return (mantissa * (expBase : Rat) ^ e, rest)

def spelled : List Char → List Char → Nat
  | c :: s, w :: word => if c.toLower = w then spelled s word + 1 else 0
  | _, _ => 0

/-- `inf` or `infinity`; a longer start of `infinity` is an input item that does not match. -/
def scanInfinity (s : List Char) : Option (List Char) :=
  let k := spelled s "infinity".toList
  if k = 3 ∨ k = 8 then some (s.drop k) else none

/-- `nan`, optionally followed by a parenthesised character sequence. -/
def scanNan (s : List Char) : Option (List Char) :=
  if spelled s "nan".toList = 3 then
    match s.drop 3 with
    | '(' :: t =>
      match t.dropWhile (fun c => c.isAlphanum || c = '_') with
      | ')' :: rest => some rest
      | _ => none
    | rest => some rest
  else none

/-- The subject sequence of `strtod` after the sign. -/
def scanUnsigned (negative : Bool) : List Char → Option (Double × List Char)
  | [] => none
  | c :: s =>
    let signed (r : Rat × List Char) : Double × List Char :=
      (.finite (if negative then -r.1 else r.1), r.2)
    if c.toLower = 'i' then (scanInfinity (c :: s)).map (fun t => (.infinite negative, t))
    else if c.toLower = 'n' then (scanNan (c :: s)).map (fun t => (.nan, t))
    else if c = '0' ∧ spelled s ['x'] = 1 then
      (scanNumber isHexDigit 16 2 'p' (s.drop 1)).map signed
    else (scanNumber Char.isDigit 10 10 'e' (c :: s)).map signed

/-- `%lf` (and `%f`): the longest input item must be a whole floating number. -/
def scanDouble (s : List Char) : Option (Double × List Char) :=
  let (negative, t) := scanSign (skipSpace s)
  scanUnsigned negative t

def scanInt (s : List Char) : Option (Int × List Char) :=
  let (negative, t) := scanSign (skipSpace s)
  let ds := t.takeWhile Char.isDigit
  let n : Int := digitsValue 10 ds
  if ds = [] then none else some (if negative then -n else n, t.dropWhile Char.isDigit)

/-- `%ws` with field width `w`: up to `w` bytes that are not white space, at least one. -/
def scanString (w : Nat) (s : List Char) : Option (List Char × List Char) :=
  let t := skipSpace s
  let item := (t.take w).takeWhile (fun c => !isSpace c)
  if item = [] then none else some (item, t.drop item.length)

/-- The directives of a format; `literal` is a byte that is not white space. -/
inductive Directive where
  | literal (c : Char)
  | lf
  | c
  | d
  | s (width : Nat)
  deriving DecidableEq

inductive Item where
  | double (x : Double)
  | char (c : Char)
  | int (n : Int)
  | string (s : List Char)
  deriving DecidableEq

/-- The items `sscanf` assigns before the first directive that fails. Their number is its
result, except that it returns EOF instead of 0 when the input ends too early. -/
def sscanf : List Directive → List Char → List Item
  | [], _ => []
  | .literal _ :: _, [] => []
  | .literal c :: fmt, x :: s => if x = c then sscanf fmt s else []
  | .c :: _, [] => []
  | .c :: fmt, x :: s => .char x :: sscanf fmt s
  | .lf :: fmt, s =>
    match scanDouble s with
    | some (x, t) => .double x :: sscanf fmt t
    | none => []
  | .d :: fmt, s =>
    match scanInt s with
    | some (n, t) => .int n :: sscanf fmt t
    | none => []
  | .s w :: fmt, s =>
    match scanString w s with
    | some (x, t) => .string x :: sscanf fmt t
    | none => []

theorem fgetsPiece_append (n : Nat) (s : List Char) :
    (fgetsPiece n s).1 ++ (fgetsPiece n s).2 = s := by
  induction n generalizing s with
  | zero => rfl
  | succ n ih =>
    cases s with
    | nil => rfl
    | cons c s =>
      simp only [fgetsPiece]
      split_ifs with hc
      · rfl
      · exact congrArg (List.cons c) (ih s)

theorem fgetsPiece_ne_nil (n : Nat) (c : Char) (s : List Char) :
    (fgetsPiece (n + 1) (c :: s)).1 ≠ [] := by
  simp only [fgetsPiece]
  split_ifs <;> simp

theorem fgets_length_lt (size : Nat) (hs : 2 ≤ size) (s piece rest : List Char)
    (h : fgets size s = some (piece, rest)) : rest.length < s.length := by
  cases s with
  | nil => simp [fgets] at h
  | cons c s =>
    obtain ⟨k, rfl⟩ : ∃ k, size = k + 2 := ⟨size - 2, by omega⟩
    simp only [fgets, Option.some.injEq] at h
    have happ := congrArg List.length (fgetsPiece_append (k + 1) (c :: s))
    have hne := List.length_pos_iff.mpr (fgetsPiece_ne_nil k c s)
    rw [show k + 2 - 1 = k + 1 from rfl] at h
    rw [h] at happ hne
    simp only [List.length_append] at happ hne
    omega

theorem fgets_eq_none (size : Nat) (s : List Char) : fgets size s = none ↔ s = [] := by
  cases s <;> simp [fgets]

section Format

variable {fmt : List Directive} {s : List Char}

theorem sscanf_nil (fmt : List Directive) : sscanf fmt [] = [] := by
  cases fmt with
  | nil => rfl
  | cons directive fmt =>
    cases directive with
    | s width =>
      have hnone : scanString width [] = none := by simp [scanString, skipSpace]
      simp [sscanf, hnone]
    | _ => rfl

theorem sscanf_literals (text s : List Char) (fmt : List Directive) :
    sscanf (text.map .literal ++ fmt) (text ++ s) = sscanf fmt s := by
  induction text with
  | nil => rfl
  | cons c text ih => simpa [sscanf] using ih

theorem sscanf_literals_of_pos (text : List Char)
    (h : 0 < (sscanf (text.map .literal ++ fmt) s).length) : text <+: s := by
  induction text generalizing s with
  | nil => exact List.nil_prefix
  | cons c text ih =>
    cases s with
    | nil => simp [sscanf_nil] at h
    | cons d s =>
      simp only [List.map_cons, List.cons_append, sscanf] at h
      split_ifs at h with hd
      · rw [hd]
        exact List.cons_prefix_cons.mpr ⟨rfl, ih h⟩
      · simp at h

/-- The directives that assign an item. -/
def conversions (fmt : List Directive) : List Directive :=
  fmt.filter (fun | .literal _ => false | _ => true)

def Directive.Assigns : Directive → Item → Prop
  | .lf, .double _ => True
  | .c, .char _ => True
  | .d, .int _ => True
  | .s _, .string _ => True
  | _, _ => False

/-- The items assigned are those of the first conversions, in order. -/
theorem sscanf_assigns (fmt : List Directive) (s : List Char) :
    List.Forall₂ Directive.Assigns ((conversions fmt).take (sscanf fmt s).length)
      (sscanf fmt s) := by
  induction fmt generalizing s with
  | nil => exact .nil
  | cons directive fmt ih =>
    cases directive with
    | literal c =>
      cases s with
      | nil => exact .nil
      | cons d s =>
        simp only [sscanf]
        split_ifs
        · exact ih s
        · exact .nil
    | lf =>
      simp only [sscanf]
      split
      · exact .cons trivial (ih _)
      · exact .nil
    | c =>
      cases s with
      | nil => exact .nil
      | cons d s => exact .cons trivial (ih s)
    | d =>
      simp only [sscanf]
      split
      · exact .cons trivial (ih _)
      · exact .nil
    | s w =>
      simp only [sscanf]
      split
      · exact .cons trivial (ih _)
      · exact .nil

end Format

end LFBenchmarks.Stdio
