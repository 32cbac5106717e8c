import Cvise.LinePasses
import Cvise.MakefileArguments
import Cvise.ModuleMapBlocks

namespace Cvise
set_option autoImplicit true

namespace ClangModuleMapPass

open MakefileParser

variable {c : Blocks TextWithLoc} {ls : List TextWithLoc} {inside : Bool} {data : Bytes}

theorem parseFile_blocks (hlines : c.lines = locateLines 0 (byteLines data))
    (hreads : ReadsAs false c) (h : Readable false c) : parseFile data = .ok (fileOf c) := by
  have hfinish : (c.lines.foldlM parseLine {}).map ParseState.finish =
      .ok (extendState c {}).finish := foldlM_finish hreads h
  rw [hlines] at hfinish
  have hfile : (extendState c {}).finish = fileOf c := by
    simp only [extendState, ParseState.finish, ParseState.filed, fileOf, List.nil_append,
      List.append_nil]
  rw [hfile] at hfinish
  rw [parseFile]
  cases hfold : (locateLines 0 (byteLines data)).foldlM parseLine {} with
  | error e =>
    rw [hfold] at hfinish
    cases hfinish
  | ok st =>
    rw [hfold] at hfinish
    exact hfinish

theorem locateLines_values (pos : Nat) (lines : List Bytes) :
    (locateLines pos lines).map (·.value) = lines := by
  induction lines generalizing pos with
  | nil => rfl
  | cons line lines ih => rw [locateLines, List.map_cons, ih]

structure ReadBlocks (data : Bytes) (c : Blocks TextWithLoc) : Prop where
  lines : c.lines = locateLines 0 (byteLines data)
  reads : ReadsAs false c
  readable : Readable false c
  parsed : parseFile data = .ok (fileOf c)

/-- A file that can be read is read as some blocks. -/
theorem exists_readBlocks (h : parseFile data = .ok file) :
    ∃ c, ReadBlocks data c ∧ file = fileOf c := by
  obtain ⟨c, hlines, hreads⟩ := Blocks.exists_reads
    (fun inside (l : TextWithLoc) => lineRole inside l.value)
    (fun l => lineRole_outside l.value) (locateLines 0 (byteLines data))
  obtain ⟨st, hfold, -⟩ := except_bind_ok.1 h
  have hread : Readable false c := @readable_of_ok {} c st hreads (hlines ▸ hfold)
  have hparse := parseFile_blocks hlines hreads hread
  exact ⟨c, ⟨hlines, hreads, hread, hparse⟩, Except.ok.inj (h.symm.trans hparse)⟩

/-- The file with the lines that are kept is read as what is kept of the blocks. -/
theorem ReadBlocks.pruned {keep : TextWithLoc → Bool} (h : ReadBlocks data c)
    (hkeep : c.Balanced keep false)
    (hout : byteLines out = (c.lines.filter keep).map (·.value)) :
    ∃ c', ReadBlocks out c' ∧ c'.map (·.value) = (c.prune keep).map (·.value) := by
  have hlines : (locateLines 0 (byteLines out)).map (·.value) =
      ((c.prune keep).map (·.value)).lines := by
    rw [locateLines_values, hout, Blocks.lines_map, Blocks.prune_lines hkeep]
  obtain ⟨c', hc', hvalues⟩ := Blocks.exists_map hlines
  have hreads' : ((c.prune keep).map (·.value)).Reads lineRole false :=
    (Blocks.reads_map _ _).2 (h.reads.prune hkeep)
  have hread' : ((c.prune keep).map (·.value)).Forall IsReadable false :=
    (Blocks.forall_map _ _).2 (h.readable.prune hkeep)
  rw [← hvalues] at hreads' hread'
  have hreads' : ReadsAs false c' := (Blocks.reads_map _ _).1 hreads'
  have hread' : Readable false c' := (Blocks.forall_map _ _).1 hread'
  exact ⟨c', ⟨hc', hreads', hread', parseFile_blocks hc' hreads' hread'⟩, hvalues⟩

/-- The ranges of the hints for a text: each line of its own, and what goes with a submodule. -/
def rangesIn (inside : Bool) : Blocks TextWithLoc → List (List SourceLoc)
  | .nil => []
  | .line a rest => [a.loc] :: rangesIn inside rest
  | .block a body close rest =>
    (if inside then
      [if body.topLines.flatMap headerOf = [] ∧ body.topLines.flatMap useOf = [] ∧
          (modulesIn body).isEmpty then
        [⟨a.loc.beginPos, endOf a.loc.endPos (body.lines ++ close.toList)⟩]
      else [a.loc, (close.map (·.loc)).getD a.loc]]
    else []) ++ (rangesIn true body ++ rangesIn inside rest)

/-- Lines that follow each other, none of them empty. -/
structure InOrder (ls : List TextWithLoc) : Prop where
  ordered : ls.Pairwise fun l l' => l.loc.endPos ≤ l'.loc.beginPos
  nonempty : ∀ l ∈ ls, l.loc.beginPos < l.loc.endPos

theorem InOrder.sublist (h : InOrder ls) (hsub : ls'.Sublist ls) : InOrder ls' :=
  ⟨h.ordered.sublist hsub, fun l hl => h.nonempty l (hsub.subset hl)⟩

theorem inOrder_locateLines (pos : Nat) {lines : List Bytes} (hne : ∀ l ∈ lines, l ≠ []) :
    InOrder (locateLines pos lines) := by
  induction lines generalizing pos with
  | nil => exact ⟨.nil, List.forall_mem_nil _⟩
  | cons line lines ih =>
    obtain ⟨hline, hlines⟩ := List.forall_mem_cons.1 hne
    have hrest := ih (pos + line.length) hlines
    refine ⟨List.pairwise_cons.2 ⟨fun l hl => (locateLines_begin hl).2.1, hrest.ordered⟩,
      List.forall_mem_cons.2 ⟨?_, hrest.nonempty⟩⟩
    exact Nat.lt_add_of_pos_right (List.length_pos_iff.2 hline)

theorem endOf_mem (a : TextWithLoc) (ls : List TextWithLoc) :
    ∃ l ∈ a :: ls, endOf a.loc.endPos ls = l.loc.endPos ∧ ∀ l' ∈ a :: ls, InOrder (a :: ls) →
      l'.loc.endPos ≤ l.loc.endPos := by
  induction ls generalizing a with
  | nil =>
    refine ⟨a, List.mem_cons_self, rfl, fun l' hl' _ => ?_⟩
    obtain rfl := List.mem_singleton.1 hl'
    exact Nat.le_refl _
  | cons b ls ih =>
    obtain ⟨l, hl, hend, hlast⟩ := ih b
    refine ⟨l, List.mem_cons_of_mem _ hl, hend, fun l' hl' horder => ?_⟩
    have hrest := horder.sublist (List.sublist_cons_self a (b :: ls))
    rcases List.mem_cons.1 hl' with rfl | hl'
    · have hbefore := (List.pairwise_cons.1 horder.ordered).1 l hl
      have hne := horder.nonempty l (List.mem_cons_of_mem _ hl)
      omega
    · exact hlast l' hl' hrest

/-- A range of a hint goes from the begin of a line to the end of one. -/
theorem rangesIn_lines (horder : InOrder c.lines) (h : locs ∈ rangesIn inside c)
    (hloc : loc ∈ locs) :
    ∃ l ∈ c.lines, ∃ l' ∈ c.lines, loc.beginPos = l.loc.beginPos ∧ loc.endPos = l'.loc.endPos ∧
      l.loc.beginPos < l'.loc.endPos := by
  induction c generalizing inside with
  | nil => cases h
  | line a rest ih =>
    rcases List.mem_cons.1 h with rfl | h
    · obtain rfl := List.mem_singleton.1 hloc
      exact ⟨a, List.mem_cons_self, a, List.mem_cons_self, rfl, rfl,
        horder.nonempty a List.mem_cons_self⟩
    · obtain ⟨l, hl, l', hl', hrange⟩ := ih (horder.sublist (List.sublist_cons_self _ _)) h
      exact ⟨l, List.mem_cons_of_mem _ hl, l', List.mem_cons_of_mem _ hl', hrange⟩
  | block a body close rest ihb ihr =>
    rw [Blocks.lines] at horder ⊢
    have hbodySub : body.lines.Sublist (a :: (body.lines ++ (close.toList ++ rest.lines))) :=
      (List.sublist_append_left _ _).cons a
    have hrestSub : rest.lines.Sublist (a :: (body.lines ++ (close.toList ++ rest.lines))) :=
      ((List.sublist_append_right _ _).trans (List.sublist_append_right _ _)).cons a
    have hown : a.loc.beginPos < a.loc.endPos := horder.nonempty a List.mem_cons_self
    rcases List.mem_append.1 h with h | h
    · split at h
      · obtain rfl := List.mem_singleton.1 h
        split at hloc
        · obtain rfl := List.mem_singleton.1 hloc
          have hsub : (a :: (body.lines ++ close.toList)).Sublist
              (a :: (body.lines ++ (close.toList ++ rest.lines))) := by
            rw [← List.append_assoc]
            exact (List.sublist_append_left _ _).cons_cons a
          obtain ⟨l, hl, hend, hlast⟩ := endOf_mem a (body.lines ++ close.toList)
          refine ⟨a, List.mem_cons_self, l, hsub.subset hl, rfl, hend, ?_⟩
          exact hown.trans_le (hlast a List.mem_cons_self (horder.sublist hsub))
        · rcases List.mem_cons.1 hloc with rfl | hloc
          · exact ⟨a, List.mem_cons_self, a, List.mem_cons_self, rfl, rfl, hown⟩
          · obtain rfl := List.mem_singleton.1 hloc
            cases close with
            | none => exact ⟨a, List.mem_cons_self, a, List.mem_cons_self, rfl, rfl, hown⟩
            | some x =>
              have hx : x ∈ a :: (body.lines ++ ((some x).toList ++ rest.lines)) := by simp
              exact ⟨x, hx, x, hx, rfl, rfl, horder.nonempty x hx⟩
      · cases h
    · rcases List.mem_append.1 h with h | h
      · obtain ⟨l, hl, l', hl', hrange⟩ := ihb (horder.sublist hbodySub) h
        exact ⟨l, hbodySub.subset hl, l', hbodySub.subset hl', hrange⟩
      · obtain ⟨l, hl, l', hl', hrange⟩ := ihr (horder.sublist hrestSub) h
        exact ⟨l, hrestSub.subset hl, l', hrestSub.subset hl', hrange⟩

/-- One of the ranges holds the begin of the line. -/
def Covers (locs : List SourceLoc) (l : TextWithLoc) : Prop :=
  ∃ loc ∈ locs, loc.beginPos ≤ l.loc.beginPos ∧ l.loc.beginPos < loc.endPos

/-- The ranges of a hint for some lines do not reach the lines that come before or after. -/
theorem not_covers (horder : InOrder c.lines) (hlocs : locs ∈ rangesIn inside c)
    (hl : (∀ l' ∈ c.lines, l.loc.endPos ≤ l'.loc.beginPos) ∧ l.loc.beginPos < l.loc.endPos ∨
      ∀ l' ∈ c.lines, l'.loc.endPos ≤ l.loc.beginPos) : ¬ Covers locs l := by
  rintro ⟨loc, hloc, hbegin, hend⟩
  obtain ⟨l₁, hl₁, l₂, hl₂, hbegin₁, hend₂, -⟩ := rangesIn_lines horder hlocs hloc
  rcases hl with ⟨hbefore, hne⟩ | hafter
  · have hfirst := hbefore l₁ hl₁
    omega
  · have hlast := hafter l₂ hl₂
    omega

theorem balanced_of_flat {keep : TextWithLoc → Bool} (h : modulesIn c = []) (inside : Bool) :
    c.Balanced keep inside := by
  induction c with
  | nil => trivial
  | line a rest ih => exact ih h
  | block a body close rest _ _ => cases h

theorem inOrder_block {a : TextWithLoc} {body rest : Blocks TextWithLoc}
    {close : Option TextWithLoc} (horder : InOrder (Blocks.block a body close rest).lines) :
    InOrder body.lines ∧ InOrder rest.lines ∧
      (∀ l ∈ body.lines, a.loc.endPos ≤ l.loc.beginPos) ∧
      (∀ x ∈ close, a.loc.endPos ≤ x.loc.beginPos ∧ x.loc.beginPos < x.loc.endPos) ∧
      (∀ l ∈ rest.lines, a.loc.endPos ≤ l.loc.beginPos) ∧
      (∀ l ∈ body.lines, ∀ x ∈ close, l.loc.endPos ≤ x.loc.beginPos) ∧
      (∀ l ∈ body.lines, ∀ l' ∈ rest.lines, l.loc.endPos ≤ l'.loc.beginPos) ∧
      ∀ x ∈ close, ∀ l ∈ rest.lines, x.loc.endPos ≤ l.loc.beginPos := by
  obtain ⟨hord, hne⟩ := horder
  obtain ⟨ha, hord⟩ := List.pairwise_cons.1 hord
  obtain ⟨hbody, hord, hbodyAfter⟩ := List.pairwise_append.1 hord
  obtain ⟨-, hrest, hclose⟩ := List.pairwise_append.1 hord
  have hne' := (List.forall_mem_cons.1 hne).2
  refine ⟨⟨hbody, fun l hl => hne' l (List.mem_append_left _ hl)⟩,
    ⟨hrest, fun l hl => hne' l (List.mem_append_right _ (List.mem_append_right _ hl))⟩,
    fun l hl => ha l (List.mem_append_left _ hl), fun x hx => ?_,
    fun l hl => ha l (List.mem_append_right _ (List.mem_append_right _ hl)),
    fun l hl x hx => hbodyAfter l hl x (List.mem_append_left _ (Option.mem_toList.2 hx)),
    fun l hl l' hl' => hbodyAfter l hl l' (List.mem_append_right _ hl'),
    fun x hx l hl => hclose x (Option.mem_toList.2 hx) l hl⟩
  have hx := List.mem_append_right body.lines
    (List.mem_append_left rest.lines (Option.mem_toList.2 hx))
  exact ⟨ha x hx, hne' x hx⟩

/-- Whichever hints are chosen, a line that opens a submodule goes with the one that closes it. -/
theorem balanced_of_chosen {keep : TextWithLoc → Bool} {chosen : List (List SourceLoc)}
    (horder : InOrder c.lines)
    (hkeep : ∀ l, keep l = true ↔ ∀ locs ∈ chosen, ¬ Covers locs l)
    (hchosen : ∀ locs ∈ chosen, locs ∈ rangesIn inside c ∨ ∀ l ∈ c.lines, ¬ Covers locs l) :
    c.Balanced keep inside := by
  induction c generalizing inside with
  | nil => trivial
  | line a rest ih =>
    obtain ⟨hbefore, -⟩ := List.pairwise_cons.1 horder.ordered
    refine ih (horder.sublist (List.sublist_cons_self _ _)) fun locs hlocs => ?_
    rcases hchosen locs hlocs with h | h
    · rcases List.mem_cons.1 h with rfl | h
      · refine .inr fun l hl => ?_
        rintro ⟨loc, hloc, -, hend⟩
        obtain rfl := List.mem_singleton.1 hloc
        exact absurd (hbefore l hl) (Nat.not_le_of_lt hend)
      · exact .inl h
    · exact .inr fun l hl => h l (List.mem_cons_of_mem _ hl)
  | block a body close rest ihb ihr =>
    obtain ⟨hbody, hrest, habody, haclose, harest, hbodyClose, hbodyRest, hcloseRest⟩ :=
      inOrder_block horder
    have hane : a.loc.beginPos < a.loc.endPos := horder.nonempty a List.mem_cons_self
    obtain ⟨last, hlast, hend, hlatest⟩ := endOf_mem a (body.lines ++ close.toList)
    have hlines : (Blocks.block a body close rest).lines =
        (a :: (body.lines ++ close.toList)) ++ rest.lines := by
      rw [Blocks.lines, List.cons_append, List.append_assoc]
    have hlatest (l : TextWithLoc) (hl : l ∈ a :: (body.lines ++ close.toList)) :
        l.loc.endPos ≤ last.loc.endPos :=
      hlatest l hl (horder.sublist (hlines ▸ List.sublist_append_left _ _))
    have hlastRest : ∀ l ∈ rest.lines, last.loc.endPos ≤ l.loc.beginPos := by
      rw [hlines] at horder
      exact (List.pairwise_append.1 horder.ordered).2.2 last hlast
    generalize hown : (if body.topLines.flatMap headerOf = [] ∧ body.topLines.flatMap useOf = [] ∧
        (modulesIn body).isEmpty then
          [⟨a.loc.beginPos, endOf a.loc.endPos (body.lines ++ close.toList)⟩]
      else [a.loc, (close.map (·.loc)).getD a.loc] : List SourceLoc) = own
    have hcases : ∀ locs ∈ chosen, inside = true ∧ locs = own ∨ locs ∈ rangesIn true body ∨
        locs ∈ rangesIn inside rest ∨
          ∀ l ∈ (Blocks.block a body close rest).lines, ¬ Covers locs l := by
      intro locs hlocs
      rcases hchosen locs hlocs with h | h
      · rw [rangesIn, hown] at h
        rcases List.mem_append.1 h with h | h
        · split at h
          · rename_i hin
            exact .inl ⟨hin, List.mem_singleton.1 h⟩
          · cases h
        · rcases List.mem_append.1 h with h | h
          · exact .inr (.inl h)
          · exact .inr (.inr (.inl h))
      · exact .inr (.inr (.inr h))
    have hcoversTitle : Covers own a := by
      rw [← hown]
      split
      · refine ⟨_, List.mem_singleton_self _, Nat.le_refl _, ?_⟩
        rw [hend]
        exact hane.trans_le (hlatest a List.mem_cons_self)
      · exact ⟨a.loc, List.mem_cons_self, Nat.le_refl _, hane⟩
    have hcoversClose : ∀ x ∈ close, Covers own x := by
      rintro x rfl
      obtain ⟨hax, hx⟩ := haclose x rfl
      rw [← hown]
      split
      · refine ⟨_, List.mem_singleton_self _, hane.le.trans hax, ?_⟩
        rw [hend]
        exact hx.trans_le (hlatest x (by simp))
      · exact ⟨x.loc, List.mem_cons_of_mem _ (List.mem_singleton_self _), Nat.le_refl _, hx⟩
    have hownRest : ∀ l ∈ rest.lines, ¬ Covers own l := by
      rintro l hl ⟨loc, hloc, -, hin⟩
      have hafter := hlastRest l hl
      have htitle := hlatest a List.mem_cons_self
      rw [← hown] at hloc
      split at hloc
      · obtain rfl := List.mem_singleton.1 hloc
        rw [hend] at hin
        exact absurd hin (Nat.not_lt_of_le hafter)
      · rcases List.mem_cons.1 hloc with rfl | hloc
        · omega
        · obtain rfl := List.mem_singleton.1 hloc
          cases close with
          | none => exact absurd hin (Nat.not_lt_of_le (htitle.trans hafter))
          | some x => exact absurd hin (Nat.not_lt_of_le (hcloseRest x rfl l hl))
    refine ⟨fun hout => (hkeep a).2 fun locs hlocs => ?_, fun x hx => ?_, ?_, ?_⟩
    · rcases hcases locs hlocs with ⟨hin, -⟩ | h | h | h
      · cases hin.symm.trans hout
      · exact not_covers hbody h (.inl ⟨habody, hane⟩)
      · exact not_covers hrest h (.inl ⟨harest, hane⟩)
      · exact h a List.mem_cons_self
    · refine Bool.eq_iff_iff.2 ((hkeep x).trans (Iff.trans ?_ (hkeep a).symm))
      refine forall₂_congr fun locs hlocs => not_congr ?_
      rcases hcases locs hlocs with ⟨-, rfl⟩ | h | h | h
      · exact iff_of_true (hcoversClose x hx) hcoversTitle
      · exact iff_of_false (not_covers hbody h (.inr fun l hl => hbodyClose l hl x hx))
          (not_covers hbody h (.inl ⟨habody, hane⟩))
      · exact iff_of_false (not_covers hrest h (.inl ⟨hcloseRest x hx, (haclose x hx).2⟩))
          (not_covers hrest h (.inl ⟨harest, hane⟩))
      · refine iff_of_false (h x ?_) (h a List.mem_cons_self)
        rw [hlines]
        exact List.mem_append_left _ (List.mem_cons_of_mem _
          (List.mem_append_right _ (Option.mem_toList.2 hx)))
    · by_cases hflat : (modulesIn body).isEmpty = true
      · exact balanced_of_flat (List.isEmpty_iff.1 hflat) true
      · refine ihb hbody fun locs hlocs => ?_
        rcases hcases locs hlocs with ⟨-, rfl⟩ | h | h | h
        · refine .inr ?_
          rintro l hl ⟨loc, hloc, hbegin, hin⟩
          have hbefore := habody l hl
          have hne := hbody.nonempty l hl
          rw [← hown, if_neg fun h => hflat h.2.2] at hloc
          rcases List.mem_cons.1 hloc with rfl | hloc
          · omega
          · obtain rfl := List.mem_singleton.1 hloc
            cases close with
            | none => exact absurd hin (Nat.not_lt_of_le hbefore)
            | some x =>
              have hafter := hbodyClose l hl x rfl
              exact absurd hbegin (Nat.not_le_of_lt (hne.trans_le hafter))
        · exact .inl h
        · exact .inr fun l hl => not_covers hrest h
            (.inl ⟨hbodyRest l hl, hbody.nonempty l hl⟩)
        · refine .inr fun l hl => h l ?_
          rw [hlines]
          exact List.mem_append_left _ (List.mem_cons_of_mem _ (List.mem_append_left _ hl))
    · refine ihr hrest fun locs hlocs => ?_
      rcases hcases locs hlocs with ⟨-, rfl⟩ | h | h | h
      · exact .inr hownRest
      · exact .inr fun l hl => not_covers hbody h (.inr fun l' hl' => hbodyRest l' hl' l hl)
      · exact .inl h
      · refine .inr fun l hl => h l ?_
        rw [hlines]
        exact List.mem_append_right _ hl

end ClangModuleMapPass

end Cvise
