import Cvise.Text
import Mathlib.Data.List.DropRight
import Mathlib.Data.List.Induction
import Mathlib.Data.List.Pairwise

namespace Cvise
set_option autoImplicit true

namespace FuncDefWithDecl

/-- What Tree-sitter says of a node. -/
structure Node where
  type : String
  startByte : Nat
  endByte : Nat
deriving DecidableEq

/-- A node of a match with its parents, the nearest first. -/
structure Capture where
  index : Nat
  node : Node
  parents : List Node
deriving DecidableEq

/-- The nodes that `getMatchCaptures` sets; those that stay `none` are null nodes. -/
structure Captures where
  constexprQual : Option Capture := none
  qualId : Option Capture := none
  initList : Option Capture := none
  body : Option Capture := none
  funcDef : Option Capture := none

/-- An instance of a function definition that can be removed. -/
structure Instance where
  startByte : Nat
  endByte : Nat
  isTemplate : Bool
  writeSemicolon : Bool
deriving DecidableEq

/-- A line of the output: `t` is the type, `v` stands for the semicolon. -/
structure DeclHint where
  t : Nat
  l : Nat
  r : Nat
  v : Option Nat
  p : Option Int
deriving DecidableEq

def overlaps (a b : Instance) : Bool := max a.startByte b.startByte < min a.endByte b.endByte

def printAsHint (pathId : Option Int) (inst : Instance) : DeclHint :=
  ⟨if inst.isTemplate then 2 else 1, inst.startByte, inst.endByte,
    if inst.writeSemicolon then some 0 else none, pathId⟩

def getNodeText (n : Node) (fileContents : Bytes) : Bytes :=
  (fileContents.drop n.startByte).take (n.endByte - n.startByte)

/-- One capture in the loop of `getMatchCaptures`. -/
def setCapture (fileContents : Bytes) (cs : Captures) (n : Capture) : Option Captures :=
  match n.index with
  | 0 =>
    if getNodeText n.node fileContents = "constexpr".toUTF8.data.toList then
      some { cs with constexprQual := some n }
    else some cs
  | 1 => some { cs with qualId := some n }
  | 2 => some { cs with initList := some n }
  | 3 => some { cs with body := some n }
  | 4 => some { cs with funcDef := some n }
  | _ => none

/-- It is `none` where an assertion fails. -/
def getMatchCaptures (fileContents : Bytes) (m : List Capture) : Option Captures :=
  m.foldlM (setCapture fileContents) {}

/-- The outermost of the parents that have the type, one directly in the other. -/
def walkUpNodeWithType (n : Capture) (neededType : String) : Option Node :=
  (n.parents.takeWhile (·.type = neededType)).getLast?

def startOf (n : Option Node) : Nat := (n.map (·.startByte)).getD 0

/-- The instance that a match gives; there is none for a `constexpr` function. -/
def instanceOf (cs : Captures) : Option Instance :=
  if cs.constexprQual.isSome then none
  else
    let template := cs.funcDef.bind (walkUpNodeWithType · "template_declaration")
    let body := cs.body.map (·.node)
    let inst : Instance :=
      ⟨startOf body, (body.map (·.endByte)).getD 0, template.isSome, true⟩
    some <|
      if cs.qualId.isSome then
        { inst with
          startByte := startOf (if inst.isTemplate then template else cs.funcDef.map (·.node))
          writeSemicolon := false }
      else if cs.initList.isSome then
        { inst with startByte := startOf (cs.initList.map (·.node)) }
      else inst

/-- Leaves only the most detailed instances. -/
def pushInstance (all : List Instance) (inst : Instance) : List Instance :=
  all.rdropWhile (overlaps · inst) ++ [inst]

/-- One round of the loop of `processFile`. It is `none` where an assertion fails. -/
def addMatch (fileContents : Bytes) (all : List Instance) (m : List Capture) :
    Option (List Instance) := do
  let cs ← getMatchCaptures fileContents m
  match instanceOf cs with
  | none => some all
  | some inst => if inst.startByte < inst.endByte then some (pushInstance all inst) else none

def processFile (fileContents : Bytes) (ms : List (List Capture)) (pathId : Option Int) :
    Option (List DeclHint) :=
  (ms.foldlM (addMatch fileContents) []).map (·.map (printAsHint pathId))

/-- The instances of all matches, in their order. -/
def instancesOf (fileContents : Bytes) : List (List Capture) → Option (List Instance)
  | [] => some []
  | m :: ms => do
    let cs ← getMatchCaptures fileContents m
    let rest ← instancesOf fileContents ms
    match instanceOf cs with
    | none => some rest
    | some inst => if inst.startByte < inst.endByte then some (inst :: rest) else none

theorem foldlM_addMatch (h : instancesOf contents ms = some insts) (all : List Instance) :
    ms.foldlM (addMatch contents) all = some (insts.foldl pushInstance all) := by
  induction ms generalizing insts all with
  | nil =>
    obtain rfl := Option.some.inj h
    rfl
  | cons m ms ih =>
    rw [instancesOf] at h
    obtain ⟨cs, hcs, h⟩ := Option.bind_eq_some_iff.1 h
    obtain ⟨rest, hrest, h⟩ := Option.bind_eq_some_iff.1 h
    rw [List.foldlM_cons]
    cases hinst : instanceOf cs with
    | none =>
      simp only [hinst, Option.some.injEq] at h
      subst h
      simp only [addMatch, hcs, hinst, Option.bind_eq_bind, Option.bind_some]
      exact ih hrest all
    | some inst =>
      by_cases hlt : inst.startByte < inst.endByte
      · simp only [hinst, if_pos hlt, Option.some.injEq] at h
        subst h
        simp only [addMatch, hcs, hinst, if_pos hlt, Option.bind_eq_bind, Option.bind_some]
        exact ih hrest _
      · simp only [hinst, if_neg hlt, reduceCtorEq] at h

namespace Instance

/-- The bytes of the second are bytes of the first. -/
def Contains (a b : Instance) : Prop := a.startByte ≤ b.startByte ∧ b.endByte ≤ a.endByte

instance (a b : Instance) : Decidable (a.Contains b) :=
  inferInstanceAs (Decidable (a.startByte ≤ b.startByte ∧ b.endByte ≤ a.endByte))

def Disjoint (a b : Instance) : Prop := a.endByte ≤ b.startByte ∨ b.endByte ≤ a.startByte

/-- Disjoint, or one in the other. -/
def Laminar (a b : Instance) : Prop := a.Disjoint b ∨ a.Contains b ∨ b.Contains a

/-- Listed by where they start, an outer one before those in it. -/
def Precedes (a b : Instance) : Prop :=
  a.startByte < b.startByte ∨ a.startByte = b.startByte ∧ b.endByte ≤ a.endByte

def SameRange (a b : Instance) : Prop := a.startByte = b.startByte ∧ a.endByte = b.endByte

end Instance

/-- The instances as Tree-sitter reports them. -/
structure Reported (insts : List Instance) : Prop where
  nonempty : ∀ a ∈ insts, a.startByte < a.endByte
  distinct : insts.Pairwise fun a b => ¬ a.SameRange b
  laminar : insts.Pairwise Instance.Laminar
  preorder : insts.Pairwise Instance.Precedes

/-- It contains no other instance. -/
def Innermost (insts : List Instance) (a : Instance) : Prop :=
  ∀ b ∈ insts, a.Contains b → b = a

instance (insts : List Instance) : DecidablePred (Innermost insts) := fun a =>
  inferInstanceAs (Decidable (∀ b ∈ insts, a.Contains b → b = a))

/-- Where only the last element can have a property, dropping from the end filters. -/
theorem rdropWhile_eq_filter {p : α → Bool} {l : List α}
    (h : l.Pairwise fun a _ => p a = false) : l.rdropWhile p = l.filter fun a => !p a := by
  induction l using List.reverseRecOn with
  | nil => rfl
  | append_singleton l x ih =>
    obtain ⟨hl, -, hx⟩ := List.pairwise_append.1 h
    have hall : l.filter (fun a => !p a) = l :=
      List.filter_eq_self.2 fun a ha => by rw [hx a ha x (List.mem_singleton_self x)]; rfl
    have hlast : l.rdropWhile p = l := (ih hl).trans hall
    rw [List.filter_append, hall]
    cases hp : p x with
    | true =>
      rw [List.rdropWhile_concat_pos _ _ _ hp, hlast, List.filter_cons_of_neg (by simp [hp]),
        List.filter_nil, List.append_nil]
    | false =>
      rw [List.rdropWhile_concat_neg _ _ _ (by simp [hp]), List.filter_cons_of_pos (by simp [hp]),
        List.filter_nil]

namespace Reported

theorem append (h : Reported (l ++ [x])) : Reported l :=
  ⟨fun a ha => h.nonempty a (List.mem_append_left _ ha), (List.pairwise_append.1 h.distinct).1,
    (List.pairwise_append.1 h.laminar).1, (List.pairwise_append.1 h.preorder).1⟩

/-- The last instance is in those before it that overlap it, and contains none of them. -/
theorem last {l : List Instance} {x : Instance} (h : Reported (l ++ [x])) (ha : a ∈ l) :
    ¬ x.Contains a ∧ (overlaps a x = true ↔ a.Contains x) := by
  have hx := List.mem_singleton_self x
  have hpre := (List.pairwise_append.1 h.preorder).2.2 a ha x hx
  have hlam := (List.pairwise_append.1 h.laminar).2.2 a ha x hx
  have hdiff := (List.pairwise_append.1 h.distinct).2.2 a ha x hx
  have hane := h.nonempty a (List.mem_append_left _ ha)
  have hxne := h.nonempty x (List.mem_append_right _ hx)
  simp only [Instance.Laminar, Instance.Disjoint, Instance.Contains, Instance.Precedes,
    Instance.SameRange] at hpre hlam hdiff ⊢
  refine ⟨by omega, ?_⟩
  rw [overlaps, decide_eq_true_eq]
  omega

theorem between {k : List Instance} {x : Instance} (h : Reported (k ++ [x]))
    (hdisjoint : k.Pairwise Instance.Disjoint) :
    k.Pairwise fun a _ => overlaps a x = false := by
  have hpre := (List.pairwise_append.1 h.preorder).1
  refine (hpre.and hdisjoint).imp_of_mem fun {a b} ha hb hab => ?_
  obtain ⟨hab, hdis⟩ := hab
  have hx := List.mem_singleton_self x
  have hbx := (List.pairwise_append.1 h.preorder).2.2 b hb x hx
  have hbne := h.nonempty b (List.mem_append_left _ hb)
  have hxne := h.nonempty x (List.mem_append_right _ hx)
  rw [Bool.eq_false_iff, ne_eq, (h.last ha).2]
  simp only [Instance.Disjoint, Instance.Contains, Instance.Precedes] at hab hdis hbx ⊢
  omega

theorem of_sublist (h : Reported insts) (hs : l.Sublist insts) : Reported l :=
  ⟨fun a ha => h.nonempty a (hs.subset ha), h.distinct.sublist hs, h.laminar.sublist hs,
    h.preorder.sublist hs⟩

theorem innermost_disjoint (h : Reported insts) :
    (insts.filter fun a => Innermost insts a).Pairwise Instance.Disjoint := by
  have hsub : (insts.filter fun a => Innermost insts a).Sublist insts := List.filter_sublist
  have hpairs := (h.laminar.sublist hsub).and (h.distinct.sublist hsub)
  refine hpairs.imp_of_mem fun {a b} ha hb hab => ?_
  obtain ⟨hlam, hdiff⟩ := hab
  obtain ⟨ha, hain⟩ := List.mem_filter.1 ha
  obtain ⟨hb, hbin⟩ := List.mem_filter.1 hb
  rcases hlam with hdis | hcon | hcon
  · exact hdis
  · have he := of_decide_eq_true hain b hb hcon
    exact absurd ⟨congrArg Instance.startByte he.symm, congrArg Instance.endByte he.symm⟩ hdiff
  · have he := of_decide_eq_true hbin a ha hcon
    exact absurd ⟨congrArg Instance.startByte he, congrArg Instance.endByte he⟩ hdiff

/-- One instance more: those that contain it are no longer innermost, and it is. -/
theorem innermost_append (h : Reported (l ++ [x])) :
    (l ++ [x]).filter (fun a => Innermost (l ++ [x]) a) =
      (l.filter fun a => Innermost l a).filter (fun a => !overlaps a x) ++ [x] := by
  rw [List.filter_append]
  refine congrArg₂ (· ++ ·) ?_ ?_
  · rw [List.filter_filter]
    refine List.filter_congr fun a ha => ?_
    rw [Bool.eq_iff_iff, Bool.and_eq_true, Bool.not_eq_true', Bool.eq_false_iff, ne_eq,
      (h.last ha).2, decide_eq_true_eq, decide_eq_true_eq, Innermost, Innermost,
      List.forall_mem_append, List.forall_mem_singleton, and_comm]
    refine and_congr_left fun _ => ⟨fun hx hcon => ?_, fun hx hcon => absurd hcon hx⟩
    obtain rfl := hx hcon
    exact (h.last ha).1 ⟨Nat.le_refl _, Nat.le_refl _⟩
  · refine List.filter_cons_of_pos (decide_eq_true ?_)
    intro b hb hcon
    rcases List.mem_append.1 hb with hb | hb
    · exact absurd hcon (h.last hb).1
    · exact List.mem_singleton.1 hb

/-- The stack of the loop holds the innermost instances of those seen. -/
theorem foldl_pushInstance (h : Reported insts) :
    insts.foldl pushInstance [] = insts.filter fun a => Innermost insts a := by
  induction insts using List.reverseRecOn with
  | nil => rfl
  | append_singleton l x ih =>
    have hl := h.append
    have hsub : (l.filter fun a => Innermost l a).Sublist l := List.filter_sublist
    have hkept := h.of_sublist (hsub.append (List.Sublist.refl [x]))
    rw [List.foldl_append, ih hl, List.foldl_cons, List.foldl_nil, pushInstance,
      rdropWhile_eq_filter (hkept.between hl.innermost_disjoint), h.innermost_append]

theorem contains_innermost (h : Reported insts) (ha : a ∈ insts) :
    ∃ b ∈ insts, Innermost insts b ∧ a.Contains b := by
  induction hn : a.endByte - a.startByte using Nat.strong_induction_on generalizing a with
  | h n ih =>
    by_cases hin : Innermost insts a
    · exact ⟨a, ha, hin, Nat.le_refl _, Nat.le_refl _⟩
    · rw [Innermost] at hin
      push Not at hin
      obtain ⟨b, hb, hcon, hne⟩ := hin
      have hdiff : ¬ (a.startByte = b.startByte ∧ a.endByte = b.endByte) := by
        have hsymm : Std.Symm fun a b : Instance => ¬ a.SameRange b :=
          ⟨fun a b hab hba => hab ⟨hba.1.symm, hba.2.symm⟩⟩
        exact h.distinct.forall ha hb hne.symm
      have hbne := h.nonempty b hb
      have hcon' : a.startByte ≤ b.startByte ∧ b.endByte ≤ a.endByte := hcon
      obtain ⟨c, hc, hcin, hbc⟩ := ih (b.endByte - b.startByte) (by omega) hb rfl
      exact ⟨c, hc, hcin, hcon.1.trans hbc.1, hbc.2.trans hcon.2⟩

end Reported

/-- What is printed are the innermost instances, in order; they are disjoint, and every other
instance contains one of them. -/
theorem processFile_innermost {insts : List Instance} (h : Reported insts) :
    (∀ contents ms pathId, instancesOf contents ms = some insts →
      processFile contents ms pathId =
        some ((insts.filter fun a => Innermost insts a).map (printAsHint pathId))) ∧
    (insts.filter fun a => Innermost insts a).Pairwise Instance.Disjoint ∧
    ∀ a ∈ insts, ¬ Innermost insts a →
      ∃ b ∈ insts.filter fun b => Innermost insts b, a.Contains b ∧ b ≠ a := by
  refine ⟨fun contents ms pathId hinsts => ?_, h.innermost_disjoint, fun a ha hnot => ?_⟩
  · rw [processFile, foldlM_addMatch hinsts, h.foldl_pushInstance]
    rfl
  · obtain ⟨b, hb, hin, hcon⟩ := h.contains_innermost ha
    refine ⟨b, List.mem_filter.2 ⟨hb, decide_eq_true hin⟩, hcon, ?_⟩
    rintro rfl
    exact hnot hin

theorem processFile_innermost_nested :
    processFile [] [[⟨3, ⟨"compound_statement", 5, 40⟩, []⟩],
      [⟨3, ⟨"compound_statement", 9, 20⟩, []⟩], [⟨3, ⟨"compound_statement", 25, 30⟩, []⟩]] none =
        some [⟨1, 9, 20, some 0, none⟩, ⟨1, 25, 30, some 0, none⟩] := by
  have hreported : Reported
      [⟨5, 40, false, true⟩, ⟨9, 20, false, true⟩, ⟨25, 30, false, true⟩] := by
    constructor
    · decide
    · simp [Instance.SameRange]
    · simp [Instance.Laminar, Instance.Disjoint, Instance.Contains]
    · simp [Instance.Precedes]
  exact (processFile_innermost hreported).1 [] _ none rfl

end FuncDefWithDecl

end Cvise
