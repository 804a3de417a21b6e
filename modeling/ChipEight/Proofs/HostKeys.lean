/-
ChipEight/Proofs/HostKeys.lean

The keys of a host over time.  A `Desk` holds the bindings of a host and the keypad that they work
on; host keys are bound, looked up and pressed at it in any order.  What a host key is bound to is
a matter of its history alone, where two characters that differ in the case of an ASCII letter are
the same host key:

    (d.after actions).get? host  =  the number bound last to that key, or else d.get? host.

A number that is no key's is refused, so that it is not part of any history.  That is also why it
is safe to press: a `LooseDesk` has plain numbers in its table and checks each of them when a key
is pressed, and the check never fires.

Main statement: `bindings_by_history`.
-/
import ChipEight.Keypad.Bindings
import ChipEight.Proofs.Checked

namespace ChipEight

/-! ### Cases of a letter -/

/-- The one character is a capital ASCII letter and the other one its small letter. -/
def IsCapitalOf (capital small : Char) : Prop :=
  'A'.toNat ≤ capital.toNat ∧ capital.toNat ≤ 'Z'.toNat ∧ small.toNat = capital.toNat + 32

/-- The characters are the same up to the case of an ASCII letter. -/
def SameHostKey (host other : Char) : Prop :=
  host = other ∨ IsCapitalOf host other ∨ IsCapitalOf other host

instance (capital small : Char) : Decidable (IsCapitalOf capital small) :=
  inferInstanceAs (Decidable (_ ∧ _ ∧ _))

instance (host other : Char) : Decidable (SameHostKey host other) :=
  inferInstanceAs (Decidable (_ ∨ _ ∨ _))

namespace Bindings

theorem toNat_fold (host : Char) :
    (fold host).toNat =
      if 65 ≤ host.toNat ∧ host.toNat ≤ 90 then host.toNat + 32 else host.toNat := by
  unfold fold Char.toLower
  have hrange : (host.val ≥ 'A'.val ∧ host.val ≤ 'Z'.val) ↔ 65 ≤ host.toNat ∧ host.toNat ≤ 90 :=
    Iff.rfl
  split
  · rename_i h
    rw [if_pos (hrange.1 h)]
    have hsmall := (hrange.1 h).2
    show (host.val + ('a'.val - 'A'.val)).toNat = host.val.toNat + 32
    rw [UInt32.toNat_add]
    exact Nat.mod_eq_of_lt (by show host.toNat + 32 < _; omega)
  · rename_i h
    rw [if_neg (mt hrange.2 h)]

/-- Host keys that share their folded character are the same up to case. -/
theorem fold_eq_fold_iff {host other : Char} : fold host = fold other ↔ SameHostKey host other := by
  rw [← Char.toNat_inj, toNat_fold, toNat_fold, SameHostKey, ← Char.toNat_inj, IsCapitalOf,
    IsCapitalOf]
  show _ ↔ _ ∨ (65 ≤ _ ∧ _ ≤ 90 ∧ _) ∨ (65 ≤ _ ∧ _ ≤ 90 ∧ _)
  split <;> split <;> omega

/-- Letters that are not ASCII letters are told apart. -/
example : SameHostKey 'R' 'r' ∧ ¬ SameHostKey 'É' 'é' := by decide

/-- The usual binding of a host key is read off the table of pairs. -/
theorem get?_usual (host : Char) : usual.get? host = usualPairs.lookup (fold host) := by
  have hdistinct : usualPairs.Pairwise fun a b => (a.1 == b.1) = false := by decide
  show (Std.HashMap.ofList usualPairs)[fold host]? = _
  rcases hkey : usualPairs.lookup (fold host) with - | key
  · apply Std.HashMap.getElem?_ofList_of_contains_eq_false
    rw [List.contains_eq_mem, decide_eq_false_iff_not]
    intro hmem
    obtain ⟨pair, hpair, hfold⟩ := List.mem_map.1 hmem
    have hne := List.lookup_eq_none_iff.1 hkey pair hpair
    rw [← hfold] at hne
    exact absurd rfl (bne_iff_ne.1 hne)
  · obtain ⟨earlier, later, hpairs, -⟩ := List.lookup_eq_some_iff.1 hkey
    refine Std.HashMap.getElem?_ofList_of_mem (beq_self_eq_true (fold host)) hdistinct ?_
    rw [hpairs]
    exact List.mem_append_right earlier List.mem_cons_self

end Bindings

/-! ### Desks -/

/-- The bindings of a host with the keypad that they work on. -/
structure Desk where
  bindings : Bindings
  keypad : Keypad

namespace Desk

/-- What is done at a desk: bind a host key to the key of a number, look up what it is bound to,
or press it or let go of it. -/
inductive Action where
  | bind (host : Char) (number : Nat)
  | look (host : Char)
  | press (host : Char) (down : Bool)

/-- What comes of it: what the host key was bound to before, that there is no such key, what the
host key is bound to, or whether the one that was pressed is bound. -/
inductive Answer where
  | bound (before? : Option Key)
  | refused (fault : KeyFault)
  | found (key? : Option Key)
  | pressed (known : Bool)

/-- Do something at a desk. -/
def perform (d : Desk) : Action → Answer × Desk
  | .bind host number =>
    match d.bindings.insert host number with
    | .ok (before?, bindings) => (.bound before?, { d with bindings })
    | .error fault => (.refused fault, d)
  | .look host => (.found (d.bindings.get? host), d)
  | .press host down =>
    match d.bindings.press? d.keypad host down with
    | some keypad => (.pressed true, { d with keypad })
    | none => (.pressed false, d)

/-- The desk that some actions lead to. -/
def after (d : Desk) (actions : List Action) : Desk :=
  actions.foldl (fun d a => (d.perform a).2) d

/-- The number that an action binds a host key to, if it does. -/
def Action.number? (host : Char) : Action → Option Nat
  | .bind other number => if SameHostKey other host ∧ number < 16 then some number else none
  | .look _ => none
  | .press _ _ => none

/-- The number that a host key was bound to last. -/
def lastNumber? (actions : List Action) (host : Char) : Option Nat :=
  (actions.filterMap (Action.number? host)).getLast?

theorem lastNumber?_cons (a : Action) (rest : List Action) (host : Char) :
    lastNumber? (a :: rest) host = (lastNumber? rest host).or (a.number? host) := by
  rw [lastNumber?, lastNumber?, List.filterMap_cons]
  cases a.number? host with
  | none => exact (Option.or_none ..).symm
  | some number =>
    dsimp only
    rw [List.getLast?_cons]
    cases (rest.filterMap (Action.number? host)).getLast? <;> rfl

variable {d : Desk} {host : Char} {number : Nat} {down : Bool}

/-! ### One action -/

theorem perform_bind_of_lt (h : number < 16) :
    d.perform (.bind host number) =
      (.bound (d.bindings.get? host),
        { d with bindings := (d.bindings.bindKey host ⟨number, h⟩).2 }) := by
  simp only [perform, Bindings.insert, Key.ofNat, dif_pos h]
  rfl

theorem perform_bind_of_le (h : 16 ≤ number) :
    d.perform (.bind host number) = (.refused ⟨number⟩, d) := by
  simp only [perform, Bindings.insert, Key.ofNat, dif_neg (Nat.not_lt.2 h)]

theorem perform_press_of_some {key : Key} (h : d.bindings.get? host = some key) :
    d.perform (.press host down) = (.pressed true, { d with keypad := d.keypad.set key down }) := by
  simp only [perform, Bindings.press?, h, Option.map_some]

theorem perform_press_of_none (h : d.bindings.get? host = none) :
    d.perform (.press host down) = (.pressed false, d) := by
  simp only [perform, Bindings.press?, h, Option.map_none]

theorem bindings_perform_press (d : Desk) (host : Char) (down : Bool) :
    (d.perform (.press host down)).2.bindings = d.bindings := by
  rcases hkey : d.bindings.get? host with - | key
  · rw [perform_press_of_none hkey]
  · rw [perform_press_of_some hkey]

/-- Binding a host key binds the keys that are the same up to case, and no others. -/
theorem get?_bindKey_of_same (b : Bindings) (host other : Char) (key : Key) :
    (b.bindKey host key).2.get? other =
      if SameHostKey host other then some key else b.get? other := by
  rw [Bindings.get?_bindKey]
  simp only [Bindings.fold_eq_fold_iff]

/-- After an action a host key is bound to what the action binds it to, or to what it was. -/
theorem get?_perform (d : Desk) (a : Action) (host : Char) :
    ((d.perform a).2.bindings.get? host).map Fin.val =
      (a.number? host).or ((d.bindings.get? host).map Fin.val) := by
  cases a with
  | bind other number =>
    by_cases hnumber : number < 16
    · rw [perform_bind_of_lt hnumber, get?_bindKey_of_same, Action.number?]
      by_cases hsame : SameHostKey other host
      · rw [if_pos hsame, if_pos ⟨hsame, hnumber⟩]
        rfl
      · rw [if_neg hsame, if_neg fun h => hsame h.1]
        rfl
    · rw [perform_bind_of_le (Nat.le_of_not_lt hnumber), Action.number?,
        if_neg fun h => hnumber h.2]
      rfl
  | look other => rfl
  | press other down =>
    rw [bindings_perform_press]
    rfl

/-- What can be done at a desk, and what comes of it. -/
structure Works (d : Desk) : Prop where
  bind : ∀ host number, ∀ h : number < 16, ∃ bindings,
    d.perform (.bind host number) = (.bound (d.bindings.get? host), { d with bindings }) ∧
      ∀ other, bindings.get? other =
        if SameHostKey host other then some ⟨number, h⟩ else d.bindings.get? other
  refuse : ∀ host number, 16 ≤ number →
    d.perform (.bind host number) = (.refused ⟨number⟩, d)
  look : ∀ host, d.perform (.look host) = (.found (d.bindings.get? host), d)
  press : ∀ host down key, d.bindings.get? host = some key → ∃ keypad,
    d.perform (.press host down) = (.pressed true, { d with keypad }) ∧
      keypad.isDown key = down ∧ ∀ other ≠ key, keypad.isDown other = d.keypad.isDown other
  stray : ∀ host down, d.bindings.get? host = none →
    d.perform (.press host down) = (.pressed false, d)
  lowest : ∀ key, d.keypad.lowestDown = some key ↔
    d.keypad.isDown key = true ∧ ∀ other < key, d.keypad.isDown other = false
  idle : d.keypad.lowestDown = none ↔ ∀ key, d.keypad.isDown key = false

theorem works (d : Desk) : d.Works where
  bind := fun host number h =>
    ⟨_, perform_bind_of_lt h, fun other => get?_bindKey_of_same d.bindings host other ⟨number, h⟩⟩
  refuse := fun _ _ => perform_bind_of_le
  look := fun _ => rfl
  press := by
    intro host down key hkey
    refine ⟨_, perform_press_of_some hkey, ?_, ?_⟩
    · rw [Keypad.isDown_set, if_pos rfl]
    · intro other hother
      rw [Keypad.isDown_set, if_neg hother.symm]
  stray := fun _ _ => perform_press_of_none
  lowest := fun _ => Keypad.lowestDown_eq_some_iff
  idle := Keypad.lowestDown_eq_none_iff

/-! ### All actions -/

/-- What a host key is bound to is told by the actions. -/
theorem get?_after (d : Desk) (actions : List Action) (host : Char) :
    ((d.after actions).bindings.get? host).map Fin.val =
      (lastNumber? actions host).or ((d.bindings.get? host).map Fin.val) := by
  induction actions generalizing d with
  | nil => rfl
  | cons a rest ih =>
    show (((d.perform a).2.after rest).bindings.get? host).map Fin.val = _
    rw [ih, get?_perform, lastNumber?_cons, Option.or_assoc]

/-- A number that was refused does not count. -/
example : lastNumber? [.bind 'q' 7, .bind 'Q' 3, .press 'q' true, .bind 'q' 16] 'q' = some 3 := by
  decide

end Desk

/-! ### Plain numbers -/

/-- A desk whose table holds plain numbers. -/
structure LooseDesk where
  table : Std.HashMap Char Nat
  keypad : Keypad

namespace LooseDesk

/-- Do something at a desk, unless that presses the key of a number that is no key's. -/
def perform? (l : LooseDesk) : Desk.Action → Option LooseDesk
  | .bind host number =>
    if number < 16 then some { l with table := l.table.insert (Bindings.fold host) number }
    else some l
  | .look _ => some l
  | .press host down =>
    match l.table[Bindings.fold host]? with
    | some number => do
      let keys ← Checked.set? l.keypad.keys number down
      some { l with keypad := ⟨keys⟩ }
    | none => some l

/-- The desk that some actions lead to, unless one of them presses such a key. -/
def after? (l : LooseDesk) (actions : List Desk.Action) : Option LooseDesk :=
  actions.foldlM perform? l

/-- The table holds the numbers of the keys, and the keypad is the same. -/
structure Loosens (l : LooseDesk) (d : Desk) : Prop where
  table : ∀ host : Char, l.table[host]? = d.bindings.table[host]?.map Fin.val
  keypad : l.keypad = d.keypad

variable {l : LooseDesk} {d : Desk}

/-- The numbers in the table are those of keys, so that each of them can be pressed. -/
theorem Loosens.perform? (h : l.Loosens d) (a : Desk.Action) :
    ∃ next, l.perform? a = some next ∧ next.Loosens (d.perform a).2 := by
  cases a with
  | bind host number =>
    by_cases hnumber : number < 16
    · refine ⟨_, if_pos hnumber, ?_⟩
      rw [Desk.perform_bind_of_lt hnumber]
      refine ⟨fun other => ?_, h.keypad⟩
      show (l.table.insert _ _)[other]? = (d.bindings.table.insert _ _)[other]?.map Fin.val
      rw [Std.HashMap.getElem?_insert, Std.HashMap.getElem?_insert, h.table other,
        apply_ite (Option.map Fin.val)]
      rfl
    · refine ⟨l, if_neg hnumber, ?_⟩
      rw [Desk.perform_bind_of_le (Nat.le_of_not_lt hnumber)]
      exact h
  | look host => exact ⟨l, rfl, h⟩
  | press host down =>
    have hnumber : l.table[Bindings.fold host]? = (d.bindings.get? host).map Fin.val :=
      h.table (Bindings.fold host)
    rw [LooseDesk.perform?, hnumber]
    rcases hkey : d.bindings.get? host with - | key
    · rw [Desk.perform_press_of_none hkey]
      exact ⟨l, rfl, h⟩
    · rw [Desk.perform_press_of_some hkey]
      have hset : Checked.set? l.keypad.keys key.val down =
          some (d.keypad.keys.set key down) := by
        rw [h.keypad, Checked.set?, dif_pos key.isLt]
      refine ⟨{ l with keypad := d.keypad.set key down }, ?_, h.table, rfl⟩
      show (Checked.set? l.keypad.keys key.val down).bind _ = _
      rw [hset]
      rfl

theorem Loosens.after? (h : l.Loosens d) (actions : List Desk.Action) :
    ∃ last, l.after? actions = some last ∧ last.Loosens (d.after actions) := by
  induction actions generalizing l d with
  | nil => exact ⟨l, rfl, h⟩
  | cons a rest ih =>
    obtain ⟨next, hnext, hloose⟩ := h.perform? a
    obtain ⟨last, hlast, hend⟩ := ih hloose
    refine ⟨last, ?_, hend⟩
    rw [LooseDesk.after?, List.foldlM_cons, hnext]
    exact hlast

end LooseDesk

/-- The desk with the plain numbers of its keys. -/
def Desk.loosened (d : Desk) : LooseDesk := ⟨d.bindings.table.map fun _ key => key.val, d.keypad⟩

theorem Desk.loosens_loosened (d : Desk) : d.loosened.Loosens d :=
  ⟨fun _ => Std.HashMap.getElem?_map, rfl⟩

/-! ### The history of a desk -/

/-- **Bindings are a matter of history.**  Whatever is done at a desk, a host key is bound to the
number that it, or the other case of it, was bound to last, or else to what it was bound to at
first, which for the usual binding stands in the table of pairs.  At every point binding gives the
key of before, numbers that are no key's are refused, pressing a bound host key sets its key alone,
pressing another one nothing, and the key reported is the lowest one that is down.  With plain
numbers in the table and each of them checked when it is pressed, all comes to the same. -/
theorem Desk.bindings_by_history (d : Desk) (actions : List Desk.Action) :
    (∀ host, ((d.after actions).bindings.get? host).map Fin.val =
      (lastNumber? actions host).or ((d.bindings.get? host).map Fin.val)) ∧
    (∀ host, Bindings.usual.get? host = Bindings.usualPairs.lookup (Bindings.fold host)) ∧
    (∀ host, Bindings.empty.get? host = none) ∧
    (d.after actions).Works ∧
    ∃ last, d.loosened.after? actions = some last ∧ last.Loosens (d.after actions) :=
  ⟨d.get?_after actions, Bindings.get?_usual, Bindings.get?_empty, (d.after actions).works,
    d.loosens_loosened.after? actions⟩

end ChipEight
