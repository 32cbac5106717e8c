import Cvise.ClangModuleMap

namespace Cvise
set_option autoImplicit true

namespace ClangModuleMapPass

open MakefileParser

/-- What a line does for the nesting of modules. -/
def lineRole (inside : Bool) (line : Bytes) : LineRole :=
  match lineKind inside line with
  | .ok (.module _) => .opens
  | .ok .closeBrace => .closes
  | _ => .plain

def headerOf (line : TextWithLoc) : List HeaderDecl :=
  match lineKind true line.value with
  | .ok (.header filePath) => [⟨line.loc, filePath⟩]
  | _ => []

def useOf (line : TextWithLoc) : List UseDecl :=
  match lineKind true line.value with
  | .ok (.use id) => [⟨line.loc, id⟩]
  | _ => []

def unclassifiedOf (inside : Bool) (line : TextWithLoc) : List SourceLoc :=
  if lineKind inside line.value = .ok .unclassified then [line.loc] else []

/-- The name of the module that a line opens. -/
def titleId (line : Bytes) : Str :=
  match lineKind true line with
  | .ok (.module id) => id
  | _ => []

def endOf (endPos : Nat) (ls : List TextWithLoc) : Nat := ls.foldl (fun _ l => l.loc.endPos) endPos

variable {st : ParseState} {c body : Blocks TextWithLoc} {inside : Bool}

/-- The unclassified lines of a text, also within modules. -/
def unclassifiedIn (inside : Bool) : Blocks TextWithLoc → List SourceLoc
  | .nil => []
  | .line a rest => unclassifiedOf inside a ++ unclassifiedIn inside rest
  | .block _ body _ rest => unclassifiedIn true body ++ unclassifiedIn inside rest

def modulesIn : Blocks TextWithLoc → List ModuleDecl
  | .nil => []
  | .line _ rest => modulesIn rest
  | .block a body close rest =>
    { loc := ⟨a.loc.beginPos, endOf a.loc.endPos (body.lines ++ close.toList)⟩
      titleLoc := a.loc
      closeBraceLoc := (close.map (·.loc)).getD a.loc
      id := titleId a.value
      headers := body.topLines.flatMap headerOf
      uses := body.topLines.flatMap useOf
      submodules := modulesIn body } :: modulesIn rest

/-- The file that a text is read as. -/
def fileOf (c : Blocks TextWithLoc) : ModuleMapFile where
  modules := modulesIn c
  unclassifiedLines := unclassifiedIn false c

/-- An open module, after the lines of a text within it. -/
def extendModule (m : ModuleDecl) (c : Blocks TextWithLoc) : ModuleDecl :=
  { m with
    loc := ⟨m.loc.beginPos, endOf m.loc.endPos c.lines⟩
    headers := m.headers ++ c.topLines.flatMap headerOf
    uses := m.uses ++ c.topLines.flatMap useOf
    submodules := m.submodules ++ modulesIn c }

/-- What the reader knows after the lines of a text. -/
def extendState (c : Blocks TextWithLoc) : ParseState → ParseState
  | ⟨[], modules, unclassified⟩ =>
    ⟨[], modules ++ modulesIn c, unclassified ++ unclassifiedIn false c⟩
  | ⟨top :: below, modules, unclassified⟩ =>
    ⟨extendModule top c :: below.map fun m =>
        { m with loc := ⟨m.loc.beginPos, endOf m.loc.endPos c.lines⟩ },
      modules, unclassified ++ unclassifiedIn true c⟩

/-- Each line can be decoded as far as it is read. -/
def IsReadable (inside : Bool) (line : Bytes) : Prop := ∃ kind, lineKind inside line = .ok kind

def ReadsAs (inside : Bool) (c : Blocks TextWithLoc) : Prop :=
  c.Reads (fun inside l => lineRole inside l.value) inside

def Readable (inside : Bool) (c : Blocks TextWithLoc) : Prop :=
  c.Forall (fun inside l => IsReadable inside l.value) inside

theorem lineKind_opens (h : lineRole inside line = .opens) :
    ∃ id, ∀ inside', lineKind inside' line = .ok (.module id) := by
  rw [lineRole] at h
  split at h
  · rename_i id hkind
    refine ⟨id, fun inside' => ?_⟩
    rw [lineKind] at hkind ⊢
    obtain ⟨found, hfound, hkind⟩ := except_bind_ok.1 hkind
    rw [hfound]
    cases found with
    | some text => exact hkind
    | none =>
      exfalso
      simp only at hkind
      split at hkind
      · cases hkind
      · obtain ⟨header, -, hkind⟩ := except_bind_ok.1 hkind
        cases header with
        | some path => cases hkind
        | none =>
          obtain ⟨use, -, hkind⟩ := except_bind_ok.1 hkind
          cases use with
          | some id => cases hkind
          | none =>
            have hkind := Except.ok.inj hkind
            split at hkind
            · cases hkind
            · cases hkind
  · cases h
  · cases h

theorem lineKind_closes (h : lineRole inside line = .closes) :
    lineKind inside line = .ok .closeBrace := by
  rw [lineRole] at h
  split at h
  · cases h
  · assumption
  · cases h

theorem lineRole_outside (line : Bytes) : lineRole false line ≠ .closes := by
  intro h
  have hkind := lineKind_closes h
  rw [lineKind] at hkind
  obtain ⟨found, -, hkind⟩ := except_bind_ok.1 hkind
  cases found with
  | some text => cases hkind
  | none => cases hkind

theorem lineKind_outside (hrole : lineRole false line = .plain) (h : IsReadable false line) :
    lineKind false line = .ok .unclassified := by
  obtain ⟨kind, hkind⟩ := h
  rw [lineRole, hkind] at hrole
  rw [lineKind] at hkind ⊢
  obtain ⟨found, hfound, hkind⟩ := except_bind_ok.1 hkind
  rw [hfound]
  cases found with
  | some text =>
    obtain rfl := Except.ok.inj hkind
    cases hrole
  | none => rfl

theorem modulesIn_append (c d : Blocks TextWithLoc) :
    modulesIn (c.append d) = modulesIn c ++ modulesIn d := by
  induction c with
  | nil => rfl
  | line a rest ih => rw [Blocks.append, modulesIn, modulesIn, ih]
  | block a body close rest _ ih => rw [Blocks.append, modulesIn, modulesIn, ih, List.cons_append]

theorem unclassifiedIn_append (inside : Bool) (c d : Blocks TextWithLoc) :
    unclassifiedIn inside (c.append d) = unclassifiedIn inside c ++ unclassifiedIn inside d := by
  induction c with
  | nil => rfl
  | line a rest ih => rw [Blocks.append, unclassifiedIn, unclassifiedIn, ih, List.append_assoc]
  | block a body close rest _ ih =>
    rw [Blocks.append, unclassifiedIn, unclassifiedIn, ih, List.append_assoc]

theorem endOf_append (endPos : Nat) (ls ls' : List TextWithLoc) :
    endOf endPos (ls ++ ls') = endOf (endOf endPos ls) ls' := List.foldl_append

theorem extendModule_append (m : ModuleDecl) (c d : Blocks TextWithLoc) :
    extendModule m (c.append d) = extendModule (extendModule m c) d := by
  rw [extendModule, extendModule, extendModule]
  simp only [Blocks.lines_append, endOf_append, Blocks.topLines_append, List.flatMap_append,
    modulesIn_append, List.append_assoc]

theorem extendState_append (c d : Blocks TextWithLoc) (st : ParseState) :
    extendState (c.append d) st = extendState d (extendState c st) := by
  obtain ⟨stack, modules, unclassified⟩ := st
  cases stack with
  | nil =>
    simp only [extendState, modulesIn_append, unclassifiedIn_append, List.append_assoc]
  | cons top below =>
    simp only [extendState, extendModule_append, unclassifiedIn_append, List.append_assoc,
      Blocks.lines_append, endOf_append, List.map_map, Function.comp_def]

theorem extendState_nil (st : ParseState) : extendState .nil st = st := by
  obtain ⟨stack, modules, unclassified⟩ := st
  cases stack with
  | nil => simp only [extendState, modulesIn, unclassifiedIn, List.append_nil]
  | cons top below =>
    have hsame (m : ModuleDecl) : { m with loc := ⟨m.loc.beginPos, m.loc.endPos⟩ } = m := by
      cases m
      rfl
    simp only [extendState, extendModule, modulesIn, unclassifiedIn, Blocks.lines, Blocks.topLines,
      endOf, List.foldl_nil, List.flatMap_nil, List.append_nil, hsame, List.map_id']

theorem extendState_isEmpty (c : Blocks TextWithLoc) (st : ParseState) :
    (extendState c st).stack.isEmpty = st.stack.isEmpty := by
  obtain ⟨stack, modules, unclassified⟩ := st
  cases stack with
  | nil => rfl
  | cons top below => rfl

theorem parseLine_plain {line : TextWithLoc}
    (hrole : lineRole (!st.stack.isEmpty) line.value = .plain)
    (h : IsReadable (!st.stack.isEmpty) line.value) :
    parseLine st line = .ok (extendState (.line line .nil) st) := by
  obtain ⟨stack, modules, unclassified⟩ := st
  cases stack with
  | nil =>
    have hkind := lineKind_outside hrole h
    rw [parseLine]
    show (lineKind false line.value >>= _) = _
    rw [hkind]
    simp only [extendState, modulesIn, List.append_nil, unclassifiedIn, unclassifiedOf, hkind,
      ↓reduceIte]
    rfl
  | cons top below =>
    obtain ⟨kind, hkind⟩ := h
    have hkind : lineKind true line.value = .ok kind := hkind
    rw [parseLine]
    show (lineKind true line.value >>= _) = _
    rw [hkind]
    have hrole : lineRole true line.value = .plain := hrole
    rw [lineRole, hkind] at hrole
    cases kind with
    | module id => cases hrole
    | closeBrace => cases hrole
    | header filePath =>
      simp only [extendState, extendModule, endOf, Blocks.lines, List.foldl_cons, List.foldl_nil,
        Blocks.topLines, List.flatMap_cons, headerOf, hkind, List.flatMap_nil, List.append_nil,
        useOf, modulesIn, unclassifiedIn, unclassifiedOf, Except.ok.injEq, reduceCtorEq, ↓reduceIte]
      rfl
    | use id =>
      simp only [extendState, extendModule, endOf, Blocks.lines, List.foldl_cons, List.foldl_nil,
        Blocks.topLines, List.flatMap_cons, headerOf, hkind, List.flatMap_nil, List.append_nil,
        useOf, modulesIn, unclassifiedIn, unclassifiedOf, Except.ok.injEq, reduceCtorEq, ↓reduceIte]
      rfl
    | unclassified =>
      simp only [extendState, extendModule, endOf, Blocks.lines, List.foldl_cons, List.foldl_nil,
        Blocks.topLines, List.flatMap_cons, headerOf, hkind, List.flatMap_nil, List.append_nil,
        useOf, modulesIn, unclassifiedIn, unclassifiedOf, ↓reduceIte]
      rfl

def openedModule (line : TextWithLoc) : ModuleDecl :=
  { loc := line.loc, titleLoc := line.loc, closeBraceLoc := line.loc, id := titleId line.value }

theorem parseLine_opens {line : TextWithLoc}
    (hrole : lineRole (!st.stack.isEmpty) line.value = .opens) : parseLine st line =
      .ok { st.stretchTo line.loc.endPos with
        stack := openedModule line :: (st.stretchTo line.loc.endPos).stack } := by
  obtain ⟨id, hkind⟩ := lineKind_opens hrole
  rw [parseLine, hkind, openedModule, titleId, hkind]
  rfl

theorem parseLine_closes {line : TextWithLoc} (hstack : st.stack ≠ [])
    (hrole : lineRole true line.value = .closes) : parseLine st line =
      .ok ((st.stretchTo line.loc.endPos).inTop
        fun m => { m with closeBraceLoc := line.loc }).pop := by
  have hinside : (!(st.stretchTo line.loc.endPos).stack.isEmpty) = true := by
    rw [Bool.not_eq_true', List.isEmpty_eq_false_iff]
    exact fun hnil => hstack (List.map_eq_nil_iff.1 hnil)
  rw [parseLine, hinside, lineKind_closes hrole]
  rfl

theorem foldlM_block {a x : TextWithLoc} (hopens : lineRole (!st.stack.isEmpty) a.value = .opens)
    (hcloses : lineRole true x.value = .closes)
    (hbody : ∀ st : ParseState, st.stack ≠ [] →
      body.lines.foldlM parseLine st = .ok (extendState body st)) :
    (a :: (body.lines ++ [x])).foldlM parseLine st =
      .ok (extendState (.block a body (some x) .nil) st) := by
  rw [List.foldlM_cons, parseLine_opens hopens]
  show (body.lines ++ [x]).foldlM parseLine _ = _
  rw [List.foldlM_append, hbody _ (List.cons_ne_nil _ _)]
  show [x].foldlM parseLine _ = _
  obtain ⟨stack, modules, unclassified⟩ := st
  rw [List.foldlM_cons, extendState, parseLine_closes (List.cons_ne_nil _ _) hcloses]
  cases stack with
  | nil =>
    simp [extendState, modulesIn, unclassifiedIn, ParseState.stretchTo, ParseState.inTop,
      ParseState.pop, extendModule, openedModule, endOf]
  | cons top below =>
    simp [extendState, modulesIn, unclassifiedIn, ParseState.stretchTo, ParseState.inTop,
      ParseState.pop, extendModule, openedModule, endOf, Blocks.lines, Blocks.topLines]

theorem lines_block (a x : TextWithLoc) (body rest : Blocks TextWithLoc) :
    (Blocks.block a body (some x) rest).lines = (a :: (body.lines ++ [x])) ++ rest.lines := by
  simp only [Blocks.lines, Option.toList_some, List.cons_append, List.append_assoc]

theorem foldlM_closed (hreads : ReadsAs (!st.stack.isEmpty) c) (hclosed : c.Closed)
    (h : Readable (!st.stack.isEmpty) c) :
    c.lines.foldlM parseLine st = .ok (extendState c st) := by
  induction c generalizing st with
  | nil =>
    rw [extendState_nil]
    rfl
  | line a rest ih =>
    have hrest := @ih (extendState (.line a .nil) st)
    rw [extendState_isEmpty] at hrest
    rw [Blocks.lines, List.foldlM_cons, parseLine_plain hreads.1 h.1]
    exact (hrest hreads.2 hclosed h.2).trans
      (congrArg Except.ok (extendState_append (.line a .nil) rest st).symm)
  | block a body close rest ihb ihr =>
    cases close with
    | none => cases hclosed.1
    | some x =>
      obtain ⟨hopens, hbody, hcloses, -, hrest⟩ := hreads
      have hblock : (a :: (body.lines ++ [x])).foldlM parseLine st =
          .ok (extendState (.block a body (some x) .nil) st) := by
        refine foldlM_block hopens hcloses fun st' hst' => ?_
        have hinside : (!st'.stack.isEmpty) = true := by
          rw [Bool.not_eq_true', List.isEmpty_eq_false_iff]
          exact hst'
        exact ihb (hinside ▸ hbody) hclosed.2.1 (hinside ▸ h.2.1)
      have hafter := @ihr (extendState (.block a body (some x) .nil) st)
      rw [extendState_isEmpty] at hafter
      rw [lines_block, List.foldlM_append, hblock]
      exact (hafter hrest hclosed.2.2 h.2.2.2).trans
        (congrArg Except.ok (extendState_append (.block a body (some x) .nil) rest st).symm)

theorem isReadable_opens (h : lineRole inside line = .opens) : IsReadable inside line := by
  obtain ⟨id, hkind⟩ := lineKind_opens h
  exact ⟨_, hkind inside⟩

theorem inside_of_stack (h : st.stack ≠ []) : (!st.stack.isEmpty) = true := by
  rw [Bool.not_eq_true', List.isEmpty_eq_false_iff]
  exact h

theorem foldlM_closedBlock {a x : TextWithLoc} {rest : Blocks TextWithLoc}
    (hreads : ReadsAs (!st.stack.isEmpty) (.block a body (some x) rest))
    (hbody : Readable true body) : (a :: (body.lines ++ [x])).foldlM parseLine st =
      .ok (extendState (.block a body (some x) .nil) st) := by
  obtain ⟨hopens, hin, hcloses, hclosed, -⟩ := hreads
  refine foldlM_block hopens hcloses fun st' hst' => ?_
  have hinside := inside_of_stack hst'
  exact foldlM_closed (hinside ▸ hin) hclosed (hinside ▸ hbody)

/-- The file of a text, where modules may still be open at its end. -/
theorem foldlM_finish (hreads : ReadsAs (!st.stack.isEmpty) c)
    (h : Readable (!st.stack.isEmpty) c) :
    (c.lines.foldlM parseLine st).map ParseState.finish = .ok (extendState c st).finish := by
  induction c generalizing st with
  | nil =>
    rw [extendState_nil]
    rfl
  | line a rest ih =>
    have hrest := @ih (extendState (.line a .nil) st)
    rw [extendState_isEmpty] at hrest
    rw [Blocks.lines, List.foldlM_cons, parseLine_plain hreads.1 h.1]
    refine (hrest hreads.2 h.2).trans ?_
    rw [← extendState_append]
    rfl
  | block a body close rest ihb ihr =>
    cases close with
    | some x =>
      have hafter := @ihr (extendState (.block a body (some x) .nil) st)
      rw [extendState_isEmpty] at hafter
      rw [lines_block, List.foldlM_append, foldlM_closedBlock hreads h.2.1]
      refine (hafter hreads.2.2.2.2 h.2.2.2).trans ?_
      rw [← extendState_append]
      rfl
    | none =>
      obtain ⟨hopens, hbody, rfl⟩ := hreads
      have hopen := @ihb { st.stretchTo a.loc.endPos with
        stack := openedModule a :: (st.stretchTo a.loc.endPos).stack } hbody h.2.1
      have hlines : (Blocks.block a body none .nil).lines = a :: body.lines := by
        simp only [Blocks.lines, Option.toList_none, List.append_nil]
      rw [hlines, List.foldlM_cons, parseLine_opens hopens]
      refine hopen.trans (congrArg Except.ok ?_)
      obtain ⟨stack, modules, unclassified⟩ := st
      cases stack with
      | nil =>
        simp [extendState, modulesIn, unclassifiedIn, ParseState.stretchTo, ParseState.finish,
          ParseState.filed, extendModule, openedModule, endOf]
      | cons top below =>
        simp only [ParseState.finish, extendState, extendModule, openedModule, endOf,
          List.nil_append, ParseState.stretchTo, List.map_cons, List.map_map, ParseState.filed,
          List.append_nil, Blocks.lines, Option.toList_none, List.foldl_cons, Blocks.topLines,
          List.flatMap_nil, modulesIn, Option.map_none, Option.getD_none, unclassifiedIn,
          ModuleMapFile.mk.injEq, List.append_cancel_left_eq, and_true]
        rfl

/-- A text that can be read at all has only lines that can. -/
theorem readable_of_ok (hreads : ReadsAs (!st.stack.isEmpty) c)
    (h : c.lines.foldlM parseLine st = .ok st') : Readable (!st.stack.isEmpty) c := by
  induction c generalizing st st' with
  | nil => trivial
  | line a rest ih =>
    rw [Blocks.lines, List.foldlM_cons] at h
    obtain ⟨st₁, hline, hrest⟩ := except_bind_ok.1 h
    have hstack : (!(st.stretchTo a.loc.endPos).stack.isEmpty) = !st.stack.isEmpty := by
      rw [ParseState.stretchTo, List.isEmpty_map]
    have hread : IsReadable (!st.stack.isEmpty) a.value := by
      obtain ⟨kind, hkind, -⟩ := except_bind_ok.1 hline
      rw [hstack] at hkind
      exact ⟨kind, hkind⟩
    obtain rfl := Except.ok.inj ((parseLine_plain hreads.1 hread).symm.trans hline)
    have hafter := @ih (extendState (.line a .nil) st) st'
    rw [extendState_isEmpty] at hafter
    exact ⟨hread, hafter hreads.2 hrest⟩
  | block a body close rest ihb ihr =>
    have ihb_inside {st₁ st₂ : ParseState} (hst : st₁.stack ≠ []) (hin : ReadsAs true body)
        (hok : body.lines.foldlM parseLine st₁ = .ok st₂) : Readable true body := by
      have hinside := inside_of_stack hst
      have hbody := @ihb st₁ st₂
      rw [hinside] at hbody
      exact hbody hin hok
    have hopened {more : List TextWithLoc} (h : (a :: more).foldlM parseLine st = .ok st') :
        more.foldlM parseLine { st.stretchTo a.loc.endPos with
          stack := openedModule a :: (st.stretchTo a.loc.endPos).stack } = .ok st' := by
      rw [List.foldlM_cons, parseLine_opens hreads.1] at h
      exact h
    cases close with
    | some x =>
      have hin := h
      rw [Blocks.lines] at hin
      have hin := hopened hin
      rw [List.foldlM_append] at hin
      obtain ⟨st₁, hbody, -⟩ := except_bind_ok.1 hin
      have hbody := ihb_inside (List.cons_ne_nil _ _) hreads.2.1 hbody
      rw [lines_block, List.foldlM_append, foldlM_closedBlock hreads hbody] at h
      have hafter := @ihr (extendState (.block a body (some x) .nil) st) st'
      rw [extendState_isEmpty] at hafter
      refine ⟨isReadable_opens hreads.1, hbody, fun y hy => ?_, hafter hreads.2.2.2.2 h⟩
      obtain rfl := Option.some.inj hy
      exact ⟨_, lineKind_closes hreads.2.2.1⟩
    | none =>
      obtain ⟨hopens, hbody, rfl⟩ := hreads
      have hlines : (Blocks.block a body none .nil).lines = a :: body.lines := by
        simp only [Blocks.lines, Option.toList_none, List.append_nil]
      rw [hlines] at h
      refine ⟨isReadable_opens hopens, ihb_inside (List.cons_ne_nil _ _) hbody (hopened h),
        fun y hy => ?_, trivial⟩
      cases hy

end ClangModuleMapPass

end Cvise
