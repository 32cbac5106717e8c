import Cvise.CutLines
import Cvise.PositionShift

namespace Cvise
set_option autoImplicit true

section keptAt

variable {α β : Type} {keep keep' : Nat → Bool} {data : List β}

theorem keptAt_from (keep : Nat → Bool) (k : Nat) (data : List β) :
    ((data.zipIdx k).filter fun x => keep x.2).map Prod.fst =
      keptAt (fun i => keep (k + i)) data := by
  rw [List.zipIdx_eq_map_add, List.filter_map, List.map_map, keptAt]
  simp only [Function.comp_def]

theorem keptAt_append (keep : Nat → Bool) (data rest : List β) : keptAt keep (data ++ rest) =
    keptAt keep data ++ keptAt (fun i => keep (data.length + i)) rest := by
  rw [keptAt, List.zipIdx_append, List.filter_append, List.map_append, Nat.zero_add,
    keptAt_from _ data.length]
  rfl

theorem keptAt_congr (h : ∀ i, i < data.length → keep i = keep' i) :
    keptAt keep data = keptAt keep' data := by
  rw [keptAt, keptAt, List.filter_congr fun x hx =>
    h x.2 (List.getElem?_eq_some_iff.1 (List.mem_zipIdx_iff_getElem?.1 hx)).1]

theorem keptAt_of_forall (h : ∀ i, i < data.length → keep i = true) : keptAt keep data = data := by
  rw [keptAt_congr h, keptAt, List.filter_true, List.zipIdx_map_fst]

theorem keptAt_of_none (h : ∀ i, i < data.length → keep i = false) : keptAt keep data = [] := by
  rw [keptAt_congr h, keptAt, List.filter_false, List.map_nil]

theorem keptAt_map (f : α → β) (keep : Nat → Bool) (data : List α) :
    keptAt keep (data.map f) = (keptAt keep data).map f := by
  rw [keptAt, keptAt, List.zipIdx_map, List.filter_map, List.map_map, List.map_map]
  rfl

/-- What is kept of each of the lines that follow each other from a position on. -/
def cutLines (keep : Nat → Bool) (pos : Nat) : List (List β) → List (List β)
  | [] => []
  | line :: lines =>
    keptAt (fun i => keep (pos + i)) line :: cutLines keep (pos + line.length) lines

theorem cutLines_map (f : α → β) (keep : Nat → Bool) (pos : Nat) (lines : List (List α)) :
    cutLines keep pos (lines.map (List.map f)) = (cutLines keep pos lines).map (List.map f) := by
  induction lines generalizing pos with
  | nil => rfl
  | cons line lines ih =>
    rw [List.map_cons, cutLines, cutLines, List.map_cons, keptAt_map, List.length_map, ih]

/-- The lines, each letter with whether it is kept. -/
def markLines (keep : Nat → Bool) (pos : Nat) : List (List β) → List (List (β × Bool))
  | [] => []
  | line :: lines =>
    (line.zipIdx pos).map (fun x => (x.1, keep x.2)) :: markLines keep (pos + line.length) lines

theorem markLines_fst (keep : Nat → Bool) (pos : Nat) (lines : List (List β)) :
    (markLines keep pos lines).map (List.map Prod.fst) = lines := by
  induction lines generalizing pos with
  | nil => rfl
  | cons line lines ih =>
    rw [markLines, List.map_cons, ih, List.map_map]
    exact congrArg (· :: lines) (List.zipIdx_map_fst pos line)

theorem markLines_flatten (keep : Nat → Bool) (pos : Nat) (lines : List (List β)) :
    (markLines keep pos lines).flatten =
      (lines.flatten.zipIdx pos).map fun x => (x.1, keep x.2) := by
  induction lines generalizing pos with
  | nil => rfl
  | cons line lines ih =>
    rw [markLines, List.flatten_cons, ih, List.flatten_cons, List.zipIdx_append, List.map_append]

theorem kept_zipIdx (keep : Nat → Bool) (pos : Nat) (line : List β) :
    MakefileParser.kept ((line.zipIdx pos).map fun x => (x.1, keep x.2)) =
      keptAt (fun i => keep (pos + i)) line := by
  rw [MakefileParser.kept, List.filter_map, List.map_map, ← keptAt_from]
  rfl

theorem kept_markLines (keep : Nat → Bool) (pos : Nat) (lines : List (List β)) :
    (markLines keep pos lines).map MakefileParser.kept = cutLines keep pos lines := by
  induction lines generalizing pos with
  | nil => rfl
  | cons line lines ih => rw [markLines, List.map_cons, kept_zipIdx, ih, cutLines]

/-- A line with its marks, and where it begins. -/
theorem mem_markLines (h : l ∈ markLines keep pos lines) :
    ∃ (before : List (List β)) (line : List β) (after : List (List β)),
      lines = before ++ line :: after ∧
      l = (line.zipIdx (pos + before.flatten.length)).map fun x => (x.1, keep x.2) := by
  induction lines generalizing pos with
  | nil => cases h
  | cons line lines ih =>
    rcases List.mem_cons.1 h with rfl | h
    · exact ⟨[], line, lines, rfl, rfl⟩
    · obtain ⟨before, line', after, rfl, rfl⟩ := ih h
      refine ⟨line :: before, line', after, rfl, ?_⟩
      rw [List.flatten_cons, List.length_append, Nat.add_assoc]

end keptAt

namespace MakefileParser

theorem mem_locateLines (pos : Nat) (before : List Bytes) (line : Bytes) (after : List Bytes) :
    ⟨⟨pos + before.flatten.length, pos + before.flatten.length + line.length⟩, line, none⟩ ∈
      locateLines pos (before ++ line :: after) := by
  induction before generalizing pos with
  | nil => exact List.mem_cons_self
  | cons line' before ih =>
    have hrest := ih (pos + line'.length)
    rw [Nat.add_assoc, ← List.length_append, ← List.flatten_cons] at hrest
    exact List.mem_cons_of_mem _ hrest

theorem isChain_marks {keep : Nat → Bool} {data : Bytes} (k : Nat)
    (hsolid : ∀ i b, data[i]? = some b → keep (k + i) ≠ keep (k + i + 1) → IsSolid b) :
    ((data.zipIdx k).map fun x => (x.1, keep x.2)).IsChain CutSolid := by
  induction data generalizing k with
  | nil => exact .nil
  | cons b data ih =>
    refine List.isChain_cons.2 ⟨fun y hy hne => ?_, ih (k + 1) fun i c hc hne => ?_⟩
    · refine hsolid 0 b rfl fun heq => hne ?_
      cases data with
      | nil => cases hy
      | cons c data =>
        obtain rfl := Option.some.inj hy
        exact heq
    · refine hsolid (i + 1) c hc fun heq => hne ?_
      rwa [← Nat.add_assoc, Nat.add_right_comm k i 1] at heq

/-- The logical lines of a file of which something is cut, where all begins of lines stay and a cut
begins or ends only behind solid bytes: the lines, cut one by one. -/
theorem logicalLines_keptAt {keep : Nat → Bool} {data : Bytes}
    (hsolid : ∀ i b, data[i]? = some b → keep i ≠ keep (i + 1) → IsSolid b)
    (hbegin : ∀ line ∈ locateLines 0 (logicalLines data), keep line.loc.beginPos = true)
    (hend : keep data.length = true) :
    logicalLines (keptAt keep data) = cutLines keep 0 (logicalLines data) := by
  have hdata := fileText_joinedLines .text data
  have hbegins {before after : List (List (UInt8 × UInt8))} {line : List (UInt8 × UInt8)}
      (hlines : joinedLines .text data = before ++ line :: after) :
      keep before.flatten.length = true := by
    have hmem := mem_locateLines 0 (before.map joinedText) (joinedText line) (after.map joinedText)
    rw [← List.map_cons, ← List.map_append, ← hlines, ← logicalLines_eq] at hmem
    have hkeep := hbegin _ hmem
    have hlength : (before.map joinedText).flatten.length = before.flatten.length := by
      have hflat : (before.map joinedText).flatten = before.flatten.map Prod.snd :=
        List.map_flatten.symm
      rw [hflat, List.length_map]
    simpa only [Nat.zero_add, hlength] using hkeep
  have hnonempty : ∀ l ∈ joinedLines .text data, l ≠ [] := by
    rw [joinedLines_splitEnds]
    exact splitEnds_ne_nil
  have hcut := @logicalLines_kept data (markLines keep 0 (joinedLines .text data))
    (markLines_fst keep 0 _) ?_ ?_ ?_
  · rw [markLines_flatten, kept_zipIdx] at hcut
    have hfile : fileText (keptAt (fun i => keep (0 + i)) (joinedLines .text data).flatten) =
        keptAt keep data := by
      rw [fileText, ← keptAt_map]
      simp only [Nat.zero_add]
      exact congrArg _ hdata
    rw [hfile] at hcut
    rw [logicalLines_eq data]
    refine hcut.trans (Eq.trans ?_ (cutLines_map Prod.snd keep 0 (joinedLines .text data)).symm)
    rw [← kept_markLines, List.map_map]
    rfl
  · have hmarks : ((markLines keep 0 (joinedLines .text data)).flatten.map
        fun x => (x.1.1, x.2)) = data.zipIdx.map fun x => (x.1, keep x.2) := by
      conv_rhs => rw [← hdata, fileText, List.zipIdx_map, List.map_map]
      rw [markLines_flatten, List.map_map]
      rfl
    rw [hmarks]
    exact isChain_marks 0 fun i b hb hne => hsolid i b hb (by simpa only [Nat.zero_add] using hne)
  · intro l hl
    obtain ⟨before, line, after, hlines, rfl⟩ := mem_markLines hl
    have hne := hnonempty line (hlines ▸ List.mem_append_right _ List.mem_cons_self)
    obtain ⟨x, line, rfl⟩ := List.exists_cons_of_ne_nil hne
    refine ⟨_, rfl, ?_⟩
    rw [Nat.zero_add]
    exact hbegins hlines
  · intro l hl x hx hcut
    obtain ⟨before, line, after, hlines, rfl⟩ := mem_markLines hl
    have hne := hnonempty line (hlines ▸ List.mem_append_right _ List.mem_cons_self)
    obtain ⟨front, y, rfl⟩ := (List.eq_nil_or_concat' line).resolve_left hne
    rw [List.zipIdx_append, List.map_append, List.zipIdx_singleton, List.map_singleton,
      List.getLast?_concat] at hx
    obtain rfl := Option.some.inj hx
    have hflat : (joinedLines .text data).flatten =
        (before.flatten ++ front) ++ y :: after.flatten := by
      rw [hlines, List.flatten_append, List.flatten_cons]
      simp only [List.append_assoc, List.singleton_append]
    have hget : data[before.flatten.length + front.length]? = some y.1 := by
      rw [← hdata, fileText, hflat, List.getElem?_map, ← List.length_append,
        List.getElem?_append_right (Nat.le_refl _), Nat.sub_self]
      rfl
    have hnext : keep (before.flatten.length + front.length + 1) = true := by
      cases after with
      | nil =>
        rw [← hdata, fileText, hflat, List.length_map] at hend
        simpa [Nat.add_assoc] using hend
      | cons line' after =>
        have hlines' : joinedLines .text data = (before ++ [front ++ [y]]) ++ line' :: after := by
          rw [hlines, List.append_assoc]
          rfl
        simpa [Nat.add_assoc] using hbegins hlines'
    refine (hsolid _ _ hget fun heq => ?_).not_newline
    rw [Nat.zero_add, heq, hnext] at hcut
    cases hcut

end MakefileParser

end Cvise
