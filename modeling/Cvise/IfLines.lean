import Cvise.ApplyHints
import Cvise.HintStorage

namespace Cvise
set_option autoImplicit true

namespace IfPass

/-- `line_regex`: blanks, a number sign, blanks, `if`. -/
def lineRegex (line : Str) : Bool :=
  match line.dropWhile isSpace with
  | '#' :: rest => "if".toList.isPrefixOf (rest.dropWhile isSpace)
  | _ => false

def macroContinues (line : Str) : Bool := (rstrip line).getLast? = some '\\'

/-- The variables of both loops: how many conditionals came before, and the multi-line flag. -/
structure LoopState where
  i : Nat := 0
  inMultiline : Bool := false
deriving DecidableEq

/-- The flag once the lines that it passes over are dealt with: `none` where the loop continues. -/
def passMultiline (s : LoopState) (line : Str) : Option LoopState :=
  if s.inMultiline && macroContinues line then none else some { s with inMultiline := false }

/-- The body of the loop of `__count_instances`. -/
def countLine (s : LoopState) (line : Str) : LoopState :=
  match passMultiline s line with
  | none => s
  | some s => if lineRegex line then ⟨s.i + 1, macroContinues line⟩ else s

/-- `__count_instances`, of the lines of a file. -/
def countInstances (lines : List Str) : Nat := (lines.foldl countLine {}).i

/-- The window of conditionals that a state selects. -/
structure Window where
  index : Nat
  stop : Nat
deriving DecidableEq

def Window.has (w : Window) (i : Nat) : Bool := w.index ≤ i && i < w.stop

def ifLine (value : Nat) : Str := "#if ".toList ++ natStr value ++ ['\n']

/-- The body of the loop of `transform`, with the line that it writes. -/
def transformLine (w : Window) (value : Nat) (s : LoopState) (line : Str) :
    LoopState × Option Str :=
  match passMultiline s line with
  | none => (s, none)
  | some s =>
    if lineRegex line then
      if w.has s.i then (⟨s.i + 1, macroContinues line⟩, some (ifLine value))
      else ({ s with i := s.i + 1 }, some line)
    else (s, some line)

def writtenLines (w : Window) (value : Nat) (s : LoopState) : List Str → List Str
  | [] => []
  | line :: lines =>
    (transformLine w value s line).2.toList ++
      writtenLines w value (transformLine w value s line).1 lines

/-- The lines of a file that is opened in text mode. -/
def fileLines (text : Str) : List Str := textLines (universalNewlines text)

/-- The text that `transform` hands to `unifdef`. -/
def unifdefInput (w : Window) (value : Nat) (text : Str) : Str :=
  (writtenLines w value {} (fileLines text)).flatten

/-- The number that a loop gives to each line that it takes for a conditional. -/
def numbers (step : LoopState → Str → LoopState) (s : LoopState) : List Str → List (Option Nat)
  | [] => []
  | line :: lines =>
    (if (step s line).i = s.i then none else some s.i) :: numbers step (step s line) lines

/-- What a line is: the number of the conditional that it starts, and of the one that it continues.
The last line of a continued condition may be both. -/
structure Role where
  number : Option Nat
  continues : Option Nat
deriving DecidableEq

/-- The roles of the lines, by the numbers of `__count_instances`. A line continues a conditional
when the line before it, of the same conditional, ends in a backslash. -/
def roles (i : Nat) (owner : Option Nat) : List Str → List Role
  | [] => []
  | line :: lines =>
    if owner.isSome && macroContinues line then ⟨none, owner⟩ :: roles i owner lines
    else if lineRegex line then
      ⟨some i, owner⟩ :: roles (i + 1) (if macroContinues line then some i else none) lines
    else ⟨none, owner⟩ :: roles i none lines

/-- The number is that of a conditional of the window. -/
def Window.selects (w : Window) (k : Option Nat) : Bool := k.any w.has

def replacedLine (w : Window) (value : Nat) (line : Str) (r : Role) : List Str :=
  if w.selects r.number then [ifLine value]
  else if w.selects r.continues then []
  else [line]

/-- The text with each conditional of the window, all its lines, replaced by one line. -/
def replacedText (w : Window) (value : Nat) (text : Str) : Str :=
  (((fileLines text).zip (roles 0 none (fileLines text))).flatMap fun x =>
    replacedLine w value x.1 x.2).flatten

/-- The conditionals of the window are replaced, nothing else is, and both loops number the
conditionals alike. -/
structure Replaces (w : Window) (value : Nat) (text : Str) : Prop where
  text_eq : unifdefInput w value text = replacedText w value text
  numbers_eq : numbers (fun s line => (transformLine w value s line).1) {} (fileLines text) =
    numbers countLine {} (fileLines text)

/-- Outside of the window, no line that the count passes over looks like a conditional. -/
def PassedOver (w : Window) (line : Str) (r : Role) : Prop :=
  ∀ k, r.continues = some k → w.has k = false → macroContinues line = true → lineRegex line = false

/-- In the window, no conditional has a last continuation line, except where that line is another
conditional of the window. -/
def Dropped (w : Window) (line : Str) (r : Role) : Prop :=
  ∀ k, r.continues = some k → w.has k = true → macroContinues line = true ∨
    w.selects r.number = true

theorem passMultiline_some {s : LoopState} (h : (s.inMultiline && macroContinues line) = false) :
    passMultiline s line = some ⟨s.i, false⟩ := by
  rw [passMultiline, h]
  rfl

theorem passMultiline_none {s : LoopState} (h : (s.inMultiline && macroContinues line) = true) :
    passMultiline s line = none := by
  rw [passMultiline, h]
  rfl

theorem roles_passed (h : (owner.isSome && macroContinues line) = true) :
    roles i owner (line :: lines) = ⟨none, owner⟩ :: roles i owner lines := by
  rw [roles, if_pos h]

theorem roles_counted (h : (owner.isSome && macroContinues line) = false)
    (hregex : lineRegex line = true) : roles i owner (line :: lines) =
      ⟨some i, owner⟩ :: roles (i + 1) (if macroContinues line then some i else none) lines := by
  rw [roles, if_neg (Bool.eq_false_iff.1 h), if_pos hregex]

theorem roles_other (h : (owner.isSome && macroContinues line) = false)
    (hregex : lineRegex line = false) :
    roles i owner (line :: lines) = ⟨none, owner⟩ :: roles i none lines := by
  rw [roles, if_neg (Bool.eq_false_iff.1 h), if_neg (Bool.eq_false_iff.1 hregex)]

theorem countLine_passed {owner : Option Nat} (h : (owner.isSome && macroContinues line) = true) :
    countLine ⟨i, owner.isSome⟩ line = ⟨i, owner.isSome⟩ := by
  rw [countLine, passMultiline_none h]

theorem countLine_counted {owner : Option Nat}
    (h : (owner.isSome && macroContinues line) = false) (hregex : lineRegex line = true) :
    countLine ⟨i, owner.isSome⟩ line =
      ⟨i + 1, (if macroContinues line then some i else none : Option Nat).isSome⟩ := by
  rw [countLine, passMultiline_some h]
  cases macroContinues line with
  | true => simp [hregex]
  | false => simp [hregex]

theorem countLine_other {owner : Option Nat}
    (h : (owner.isSome && macroContinues line) = false) (hregex : lineRegex line = false) :
    countLine ⟨i, owner.isSome⟩ line = ⟨i, (none : Option Nat).isSome⟩ := by
  rw [countLine, passMultiline_some h]
  simp [hregex]

/-- What `transform` writes for a line, given that the numbers agree. -/
def writtenLine (w : Window) (value : Nat) (line : Str) (r : Role) : List Str :=
  if w.selects r.number then [ifLine value]
  else if w.selects r.continues && macroContinues line then []
  else [line]

/-- The flag of `transform` is set within the conditionals of the window alone. -/
theorem transformLine_passed (value i : Nat) {owner : Option Nat}
    (hpass : (owner.isSome && macroContinues line) = true)
    (hsafe : PassedOver w line ⟨none, owner⟩) :
    (transformLine w value ⟨i, w.selects owner⟩ line).1 = ⟨i, w.selects owner⟩ ∧
      (transformLine w value ⟨i, w.selects owner⟩ line).2.toList =
        writtenLine w value line ⟨none, owner⟩ := by
  obtain ⟨hsome, hcont⟩ := Bool.and_eq_true_iff.1 hpass
  obtain ⟨k, rfl⟩ := Option.isSome_iff_exists.1 hsome
  cases hk : w.has k with
  | true => simp [transformLine, passMultiline, writtenLine, Window.selects, hk, hcont]
  | false =>
    have hregex := hsafe k rfl hk hcont
    simp [transformLine, passMultiline, writtenLine, Window.selects, hk, hregex]

theorem selects_continues {w : Window} {owner : Option Nat}
    (hpass : (owner.isSome && macroContinues line) = false) :
    (w.selects owner && macroContinues line) = false := by
  cases owner with
  | none => rfl
  | some k =>
    rw [Option.isSome_some, Bool.true_and] at hpass
    rw [hpass, Bool.and_false]

theorem transformLine_counted (w : Window) (value i : Nat) {owner : Option Nat}
    (hpass : (owner.isSome && macroContinues line) = false) (hregex : lineRegex line = true) :
    (transformLine w value ⟨i, w.selects owner⟩ line).1 =
        ⟨i + 1, w.selects (if macroContinues line then some i else none)⟩ ∧
      (transformLine w value ⟨i, w.selects owner⟩ line).2.toList =
        writtenLine w value line ⟨some i, owner⟩ := by
  have hflag := selects_continues (w := w) hpass
  rw [transformLine, passMultiline_some hflag, writtenLine, hflag]
  cases hi : w.has i with
  | true => cases macroContinues line <;> simp [hregex, hi, Window.selects]
  | false => cases macroContinues line <;> simp [hregex, hi, Window.selects]

theorem transformLine_other (w : Window) (value i : Nat) {owner : Option Nat}
    (hpass : (owner.isSome && macroContinues line) = false) (hregex : lineRegex line = false) :
    (transformLine w value ⟨i, w.selects owner⟩ line).1 = ⟨i, w.selects none⟩ ∧
      (transformLine w value ⟨i, w.selects owner⟩ line).2.toList =
        writtenLine w value line ⟨none, owner⟩ := by
  have hflag := selects_continues (w := w) hpass
  rw [transformLine, passMultiline_some hflag, writtenLine, hflag]
  simp [hregex, Window.selects]

theorem passedOver_of_not {owner : Option Nat}
    (hpass : (owner.isSome && macroContinues line) = false) (number : Option Nat) :
    PassedOver w line ⟨number, owner⟩ := by
  intro k hk _ hcont
  obtain rfl : owner = some k := hk
  rw [hcont] at hpass
  cases hpass

/-- A line that looks like a conditional gets a number from `transform` where no flag is set. -/
theorem transformLine_lookalike (hout : w.has k = false) (hregex : lineRegex line = true) :
    (transformLine w value ⟨i, w.selects (some k)⟩ line).1.i = i + 1 := by
  have hflag : (w.selects (some k) && macroContinues line) = false := by
    rw [Window.selects, Option.any_some, hout, Bool.false_and]
  rw [transformLine, passMultiline_some hflag]
  cases hi : w.has i <;> simp [hregex, hi]

theorem numbers_cons (step : LoopState → Str → LoopState) (s : LoopState) (line : Str)
    (lines : List Str) : numbers step s (line :: lines) =
      (if (step s line).i = s.i then none else some s.i) :: numbers step (step s line) lines := rfl

/-- `transform` numbers the conditionals as the count does exactly if the count passes over nothing
that it would take for a conditional. -/
theorem numbers_eq_iff (w : Window) (value i : Nat) (owner : Option Nat) (lines : List Str) :
    numbers (fun s line => (transformLine w value s line).1) ⟨i, w.selects owner⟩ lines =
        numbers countLine ⟨i, owner.isSome⟩ lines ↔
      ∀ x ∈ lines.zip (roles i owner lines), PassedOver w x.1 x.2 := by
  induction lines generalizing i owner with
  | nil => exact iff_of_true rfl fun x hx => absurd hx List.not_mem_nil
  | cons line lines ih =>
    rw [numbers_cons, numbers_cons]
    cases hpass : owner.isSome && macroContinues line with
    | true =>
      rw [countLine_passed hpass, roles_passed hpass, List.zip_cons_cons, List.forall_mem_cons]
      by_cases hsafe : PassedOver w line ⟨none, owner⟩
      · rw [(transformLine_passed value i hpass hsafe).1, and_iff_right hsafe, ← ih]
        exact List.cons.injEq _ _ _ _ ▸ and_iff_right rfl
      · refine iff_of_false (fun h => hsafe fun k hk hout _ => ?_) fun h => hsafe h.1
        obtain rfl : owner = some k := hk
        have hnumber := (List.cons.inj h).1
        by_contra hregex
        rw [transformLine_lookalike hout (Bool.eq_true_of_not_eq_false hregex), if_pos rfl,
          if_neg (Nat.succ_ne_self i)] at hnumber
        cases hnumber
    | false =>
      cases hregex : lineRegex line with
      | true =>
        rw [countLine_counted hpass hregex, roles_counted hpass hregex,
          (transformLine_counted w value i hpass hregex).1, List.zip_cons_cons, List.forall_mem_cons,
          and_iff_right (passedOver_of_not hpass _), ← ih]
        exact List.cons.injEq _ _ _ _ ▸ and_iff_right rfl
      | false =>
        rw [countLine_other hpass hregex, roles_other hpass hregex,
          (transformLine_other w value i hpass hregex).1, List.zip_cons_cons, List.forall_mem_cons,
          and_iff_right (passedOver_of_not hpass _), ← ih]
        exact List.cons.injEq _ _ _ _ ▸ and_iff_right rfl

theorem writtenLines_eq {w : Window} (value : Nat)
    (h : ∀ x ∈ lines.zip (roles i owner lines), PassedOver w x.1 x.2) :
    writtenLines w value ⟨i, w.selects owner⟩ lines =
      (lines.zip (roles i owner lines)).flatMap fun x => writtenLine w value x.1 x.2 := by
  induction lines generalizing i owner with
  | nil => rfl
  | cons line lines ih =>
    rw [writtenLines]
    cases hpass : owner.isSome && macroContinues line with
    | true =>
      rw [roles_passed hpass, List.zip_cons_cons, List.forall_mem_cons] at h
      obtain ⟨hstate, hline⟩ := transformLine_passed value i hpass h.1
      rw [hstate, hline, ih h.2, roles_passed hpass, List.zip_cons_cons, List.flatMap_cons]
    | false =>
      cases hregex : lineRegex line with
      | true =>
        rw [roles_counted hpass hregex, List.zip_cons_cons, List.forall_mem_cons] at h
        obtain ⟨hstate, hline⟩ :=
          transformLine_counted w value i hpass hregex
        rw [hstate, hline, ih h.2, roles_counted hpass hregex, List.zip_cons_cons,
          List.flatMap_cons]
      | false =>
        rw [roles_other hpass hregex, List.zip_cons_cons, List.forall_mem_cons] at h
        obtain ⟨hstate, hline⟩ :=
          transformLine_other w value i hpass hregex
        rw [hstate, hline, ih h.2, roles_other hpass hregex, List.zip_cons_cons,
          List.flatMap_cons]

/-- A line is written as it should be, or it should be dropped and is not. -/
theorem writtenLine_eq_iff (hne : line ≠ []) :
    ((writtenLine w value line r).flatten = (replacedLine w value line r).flatten ↔
      Dropped w line r) ∧
    (replacedLine w value line r).flatten.length ≤ (writtenLine w value line r).flatten.length := by
  obtain ⟨number, continues⟩ := r
  simp only [writtenLine, replacedLine, Dropped]
  cases hn : w.selects number with
  | true => simp
  | false =>
    cases continues with
    | none => simp [Window.selects]
    | some k =>
      cases hk : w.has k with
      | false => simp [Window.selects, hk]
      | true => cases hc : macroContinues line <;> simp [Window.selects, hk, hne]

/-- Two texts made of the same pieces, where the pieces of the second are no longer. -/
theorem flatten_eq_iff {f g : β → List (List γ)} {xs : List β}
    (hle : ∀ x ∈ xs, (g x).flatten.length ≤ (f x).flatten.length) :
    (xs.flatMap f).flatten = (xs.flatMap g).flatten ↔
      ∀ x ∈ xs, (f x).flatten = (g x).flatten := by
  have htotal {xs : List β} (hle : ∀ x ∈ xs, (g x).flatten.length ≤ (f x).flatten.length) :
      (xs.flatMap g).flatten.length ≤ (xs.flatMap f).flatten.length := by
    induction xs with
    | nil => exact Nat.le_refl _
    | cons x xs ih =>
      obtain ⟨hx, hxs⟩ := List.forall_mem_cons.1 hle
      simp only [List.flatMap_cons, List.flatten_append, List.length_append]
      exact Nat.add_le_add hx (ih hxs)
  induction xs with
  | nil => exact iff_of_true rfl fun x hx => absurd hx List.not_mem_nil
  | cons x xs ih =>
    obtain ⟨hx, hxs⟩ := List.forall_mem_cons.1 hle
    rw [List.flatMap_cons, List.flatMap_cons, List.flatten_append, List.flatten_append,
      List.forall_mem_cons]
    refine Iff.trans ?_ (and_congr_right fun _ => ih hxs)
    constructor
    · intro h
      have hlen := congrArg List.length h
      rw [List.length_append, List.length_append] at hlen
      have hrest := htotal hxs
      exact List.append_inj h (by omega)
    · intro h
      rw [h.1, h.2]

theorem textLines_ne_nil {text : Str} : ∀ line ∈ textLines text, line ≠ [] := by
  induction text with
  | nil => exact fun line hl => absurd hl List.not_mem_nil
  | cons c text ih =>
    rw [textLines]
    split
    · exact List.forall_mem_cons.2 ⟨List.cons_ne_nil _ _, ih⟩
    · split
      · exact List.forall_mem_cons.2 ⟨List.cons_ne_nil _ _, fun _ hl => absurd hl List.not_mem_nil⟩
      · rename_i line lines hlines
        rw [hlines] at ih
        exact List.forall_mem_cons.2 ⟨List.cons_ne_nil _ _, (List.forall_mem_cons.1 ih).2⟩

/-- When `transform` replaces whole conditionals. -/
theorem replaces_iff (w : Window) (value : Nat) (text : Str) : Replaces w value text ↔
    ∀ x ∈ (fileLines text).zip (roles 0 none (fileLines text)),
      PassedOver w x.1 x.2 ∧ Dropped w x.1 x.2 := by
  have hline : ∀ x ∈ (fileLines text).zip (roles 0 none (fileLines text)), x.1 ≠ [] := by
    intro x hx
    exact textLines_ne_nil x.1 (List.of_mem_zip hx).1
  have hnumbers := numbers_eq_iff w value 0 none (fileLines text)
  have htext (hsafe : ∀ x ∈ (fileLines text).zip (roles 0 none (fileLines text)),
      PassedOver w x.1 x.2) : unifdefInput w value text = replacedText w value text ↔
        ∀ x ∈ (fileLines text).zip (roles 0 none (fileLines text)), Dropped w x.1 x.2 := by
    have hwritten := writtenLines_eq value hsafe
    rw [unifdefInput, replacedText]
    refine (congrArg (fun ls : List Str => ls.flatten = _) hwritten).to_iff.trans ?_
    refine (flatten_eq_iff fun x hx => (writtenLine_eq_iff (hline x hx)).2).trans ?_
    exact forall₂_congr fun x hx => (writtenLine_eq_iff (hline x hx)).1
  constructor
  · intro h
    have hsafe := hnumbers.1 h.numbers_eq
    exact fun x hx => ⟨hsafe x hx, (htext hsafe).1 h.text_eq x hx⟩
  · intro h
    have hsafe := fun x hx => (h x hx).1
    exact ⟨(htext hsafe).2 fun x hx => (h x hx).2, hnumbers.2 hsafe⟩

/-- A condition over two lines. -/
def continuedCondition : Str := "#if A \\\n  B\nint a;\n#endif\n".toList

theorem last_line_left : ¬ ∀ (w : Window) (value : Nat) (text : Str), w.index < w.stop →
    w.stop ≤ countInstances (fileLines text) → Replaces w value text := by
  intro h
  have htext := (h ⟨0, 1⟩ 0 continuedCondition (by decide) (by decide +kernel)).text_eq
  exact absurd htext (by decide +kernel)

end IfPass

end Cvise
