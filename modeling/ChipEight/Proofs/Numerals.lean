/-
ChipEight/Proofs/Numerals.lean

Numerals read back.  Numerals differ in length, since a number is never cut to its width, so a
text of several of them can be taken apart only because none of them runs into what follows it:
where no digit is next, a numeral and the rest of the text are determined by the text,

    (text a).toList ++ r = (text b).toList ++ r'  →  a = b ∧ r = r'.

That is what `Legible text` says of a way to write values.  The statements on whole texts that
are built from numerals have this form, too, so that a text is read from its front, one piece
after the other.

Main statements: `legible_hex`, `legible_bareHex` and `legible_repr` for the three kinds of
numerals, and `Legible.spaced` for lists of any length that end with their line.
-/
import ChipEight.Numeral
import Mathlib.Data.List.Basic

namespace ChipEight.Numeral

/-- The sixteen digits, in order. -/
def digits : List Char :=
  ['0', '1', '2', '3', '4', '5', '6', '7', '8', '9', 'A', 'B', 'C', 'D', 'E', 'F']

/-- The number that some digits stand for. -/
def value (ds : List Char) : Nat :=
  ds.foldl (fun n c => 16 * n + digits.idxOf c) 0

/-- No digit is next in a text. -/
def Stops (r : List Char) : Prop := ∀ c ∈ r.head?, c ∉ digits

theorem stops_cons_iff {c : Char} {r : List Char} : Stops (c :: r) ↔ c ∉ digits := by
  constructor
  · intro h
    exact h c rfl
  · rintro hc d hd
    cases hd
    exact hc

instance : DecidablePred Stops
  | [] => .isTrue nofun
  | c :: _ => decidable_of_iff (c ∉ digits) stops_cons_iff.symm

variable {width a b n : Nat} {r r' ds ds' : List Char}

/-! ### Digits -/

/-- The digit of each number below sixteen. -/
theorem digit_of_lt (h : n < 16) :
    n.digitChar.toUpper ∈ digits ∧ digits.idxOf n.digitChar.toUpper = n := by
  have hall : ∀ d : Fin 16, d.val.digitChar.toUpper ∈ digits ∧
      digits.idxOf d.val.digitChar.toUpper = d.val := by
    decide
  exact hall ⟨n, h⟩

/-- The last digit comes off the end. -/
theorem hexDigits_eq (n : Nat) :
    hexDigits n =
      (if n < 16 then [] else hexDigits (n / 16)) ++ [(n % 16).digitChar.toUpper] := by
  rw [hexDigits, Nat.toDigits_eq_if (by decide)]
  split
  · rename_i h
    rw [Nat.mod_eq_of_lt h]
    rfl
  · rw [List.map_append]
    rfl

theorem mem_digits_of_mem_hexDigits {c : Char} (h : c ∈ hexDigits n) : c ∈ digits := by
  induction n using Nat.strongRecOn with
  | ind n ih =>
    rw [hexDigits_eq, List.mem_append, List.mem_singleton] at h
    rcases h with hfront | rfl
    · split at hfront
      · cases hfront
      · exact ih (n / 16) (by omega) hfront
    · exact (digit_of_lt (Nat.mod_lt n (by decide))).1

theorem mem_digits_of_mem_padded {c : Char} (h : c ∈ padded width n) : c ∈ digits := by
  rcases List.mem_append.1 h with hzero | hdigit
  · rw [(List.mem_replicate.1 hzero).2]
    decide
  · exact mem_digits_of_mem_hexDigits hdigit

/-- The digits of a decimal are among the sixteen. -/
theorem mem_digits_of_mem_repr {c : Char} (h : c ∈ n.repr.toList) : c ∈ digits := by
  rw [Nat.toList_repr] at h
  induction n using Nat.strongRecOn with
  | ind n ih =>
    have hall : ∀ d : Fin 10, d.val.digitChar ∈ digits := by decide
    rw [Nat.toDigits_eq_if (by decide)] at h
    split at h
    · rename_i hlt
      rw [List.mem_singleton.1 h]
      exact hall ⟨n, hlt⟩
    · rcases List.mem_append.1 h with hfront | hlast
      · exact ih (n / 10) (by omega) hfront
      · rw [List.mem_singleton.1 hlast]
        exact hall ⟨n % 10, Nat.mod_lt n (by decide)⟩

/-! ### Values -/

theorem value_append_digit (ds : List Char) (c : Char) :
    value (ds ++ [c]) = 16 * value ds + digits.idxOf c := by
  rw [value, List.foldl_append]
  rfl

/-- The digits of a number stand for it. -/
theorem value_hexDigits (n : Nat) : value (hexDigits n) = n := by
  induction n using Nat.strongRecOn with
  | ind n ih =>
    rw [hexDigits_eq, value_append_digit, (digit_of_lt (Nat.mod_lt n (by decide))).2]
    split
    · show 16 * 0 + n % 16 = n
      omega
    · rw [ih (n / 16) (by omega)]
      omega

/-- Zeros in front change nothing. -/
theorem value_padded (width n : Nat) : value (padded width n) = n := by
  have hzeros : ∀ count, value (List.replicate count '0') = 0 := by
    intro count
    induction count with
    | zero => rfl
    | succ count ih =>
      rw [List.replicate_succ', value_append_digit, ih]
      rfl
  rw [padded, value, List.foldl_append]
  show (hexDigits n).foldl _ (value (List.replicate _ '0')) = n
  rw [hzeros]
  exact value_hexDigits n

/-! ### Where a numeral begins and ends -/

/-- What comes first decides. -/
theorem stops_append {s : List Char} (hs : s ≠ [] ∧ Stops s) (r : List Char) :
    Stops (s ++ r) := by
  obtain ⟨hne, hstops⟩ := hs
  cases s with
  | nil => exact absurd rfl hne
  | cons c rest => exact stops_cons_iff.2 (stops_cons_iff.1 hstops)

/-- A numeral begins with a digit. -/
theorem not_stops_bareHex (width n : Nat) (r : List Char) :
    ¬Stops ((bareHex width n).toList ++ r) := by
  rw [bareHex, String.toList_ofList]
  intro hstops
  cases hp : padded width n with
  | nil =>
    have hnil : hexDigits n = [] := (List.append_eq_nil_iff.1 hp).2
    rw [hexDigits_eq] at hnil
    exact absurd hnil (List.concat_ne_nil _ _)
  | cons c rest =>
    rw [hp] at hstops
    have hc : c ∈ padded width n := hp ▸ List.mem_cons_self
    exact stops_cons_iff.1 hstops (mem_digits_of_mem_padded hc)

/-- Digits end where a text has no digit next. -/
theorem append_inj_of_stops (hds : ∀ c ∈ ds, c ∈ digits) (hds' : ∀ c ∈ ds', c ∈ digits)
    (hr : Stops r) (hr' : Stops r') (h : ds ++ r = ds' ++ r') : ds = ds' ∧ r = r' := by
  induction ds generalizing ds' with
  | nil =>
    cases ds' with
    | nil => exact ⟨rfl, h⟩
    | cons d rest =>
      have hr : Stops (d :: (rest ++ r')) := by
        rw [← List.cons_append, ← h]
        exact hr
      exact absurd (hds' d List.mem_cons_self) (stops_cons_iff.1 hr)
  | cons c rest ih =>
    cases ds' with
    | nil =>
      have hr' : Stops (c :: (rest ++ r)) := by
        rw [← List.cons_append, h]
        exact hr'
      exact absurd (hds c List.mem_cons_self) (stops_cons_iff.1 hr')
    | cons d rest' =>
      obtain ⟨rfl, htail⟩ := List.cons_eq_cons.1 h
      obtain ⟨rfl, hrest⟩ := ih (fun e he => hds e (List.mem_cons_of_mem c he))
        (fun e he => hds' e (List.mem_cons_of_mem c he)) htail
      exact ⟨rfl, hrest⟩

/-! ### Legible texts -/

/-- A text of a value tells the value wherever no digit is next. -/
def Legible {α : Type} (text : α → String) : Prop :=
  ∀ ⦃a b : α⦄ ⦃r r' : List Char⦄, Stops r → Stops r' →
    (text a).toList ++ r = (text b).toList ++ r' → a = b ∧ r = r'

theorem legible_bareHex (width : Nat) : Legible (bareHex width) := by
  intro a b r r' hr hr' h
  rw [bareHex, bareHex, String.toList_ofList, String.toList_ofList] at h
  obtain ⟨hdigits, hrest⟩ := append_inj_of_stops (fun c => mem_digits_of_mem_padded)
    (fun c => mem_digits_of_mem_padded) hr hr' h
  have hvalue : value (padded width a) = value (padded width b) := congrArg value hdigits
  rw [value_padded, value_padded] at hvalue
  exact ⟨hvalue, hrest⟩

theorem legible_hex (width : Nat) : Legible (hex width) := by
  intro a b r r' hr hr' h
  rw [hex, hex, String.toList_append, String.toList_append, List.append_assoc,
    List.append_assoc] at h
  exact legible_bareHex width hr hr' (List.append_cancel_left h)

theorem legible_repr : Legible Nat.repr := by
  intro a b r r' hr hr' h
  obtain ⟨hdigits, hrest⟩ := append_inj_of_stops (fun c => mem_digits_of_mem_repr)
    (fun c => mem_digits_of_mem_repr) hr hr' h
  rw [Nat.toList_repr, Nat.toList_repr] at hdigits
  have hvalue := congrArg (fun ds => Nat.ofDigitChars 10 ds 0) hdigits
  rw [Nat.ofDigitChars_toDigits (by decide) (by decide),
    Nat.ofDigitChars_toDigits (by decide) (by decide)] at hvalue
  exact ⟨hvalue, hrest⟩

namespace Legible

variable {α β : Type} {text : α → String}

/-- Values that are written as numbers they are determined by. -/
theorem comp (htext : Legible text) {f : β → α} (hf : ∀ {a b}, f a = f b → a = b) :
    Legible fun b => text (f b) := by
  intro a b r r' hr hr' h
  obtain ⟨hvalue, hrest⟩ := htext hr hr' h
  exact ⟨hf hvalue, hrest⟩

/-- A value in front of a fixed text that does not begin with a digit. -/
theorem before (htext : Legible text) {a b : α} {s : List Char} (hs : s ≠ [] ∧ Stops s)
    (h : (text a).toList ++ (s ++ r) = (text b).toList ++ (s ++ r')) : a = b ∧ r = r' := by
  obtain ⟨hvalue, hrest⟩ := htext (stops_append hs r) (stops_append hs r') h
  exact ⟨hvalue, List.append_cancel_left hrest⟩

end Legible

/-! ### Lists -/

/-- Values one after the other, each behind a blank. -/
def spaced {α : Type} (text : α → String) (as : List α) : String :=
  String.join (as.map fun a => " " ++ text a)

theorem toList_spaced_cons {α : Type} (text : α → String) (a : α) (as : List α) :
    (spaced text (a :: as)).toList = ' ' :: ((text a).toList ++ (spaced text as).toList) := by
  rw [spaced, spaced, List.map_cons, String.toList_join, String.toList_join,
    List.flatMap_cons, String.toList_append]
  rfl

/-- Values of any number are told by a text of them that goes on to the end of the line. -/
theorem Legible.spaced {α : Type} {text : α → String} (htext : Legible text) {as bs : List α}
    (h : (spaced text as).toList ++ ("\n".toList ++ r) =
      (spaced text bs).toList ++ ("\n".toList ++ r')) :
    as = bs ∧ r = r' := by
  -- behind a value comes the blank of the next one or the end of the line
  have hstops : ∀ (cs : List α) (r : List Char),
      Stops ((Numeral.spaced text cs).toList ++ ("\n".toList ++ r)) := by
    intro cs r
    cases cs with
    | nil => exact stops_append (by decide) r
    | cons c rest =>
      rw [toList_spaced_cons]
      exact stops_append (s := [' ']) (by decide) _
  induction as generalizing bs with
  | nil =>
    cases bs with
    | nil => exact ⟨rfl, List.append_cancel_left (List.append_cancel_left h)⟩
    | cons b rest =>
      rw [toList_spaced_cons] at h
      have hhead : some '\n' = some ' ' := congrArg List.head? h
      cases hhead
  | cons a rest ih =>
    cases bs with
    | nil =>
      rw [toList_spaced_cons] at h
      have hhead : some ' ' = some '\n' := congrArg List.head? h
      cases hhead
    | cons b rest' =>
      rw [toList_spaced_cons, toList_spaced_cons, List.cons_append, List.cons_append,
        List.append_assoc, List.append_assoc] at h
      obtain ⟨rfl, htail⟩ := htext (hstops rest r) (hstops rest' r') (List.cons_eq_cons.1 h).2
      obtain ⟨rfl, hrest⟩ := ih htail
      exact ⟨rfl, hrest⟩

end ChipEight.Numeral
