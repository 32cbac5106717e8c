import Cvise.Pass

namespace Cvise
set_option autoImplicit true

variable {L : Type}

/-- `SinglePassStatistic`, without the time spent. -/
structure SinglePassStatistic where
  worked : Nat := 0
  failed : Nat := 0
  totallyExecuted : Nat := 0
  totalSizeDelta : Int := 0
deriving DecidableEq

structure PassStatistic where
  stats : Dict Str SinglePassStatistic := []
  foldingStats : SinglePassStatistic := {}
deriving DecidableEq

namespace PassStatistic

/-- What `_get_stats` returns for a pass of this name, or for folding if there is none. -/
def getStats (s : PassStatistic) : Option Str → SinglePassStatistic
  | none => s.foldingStats
  | some name => ((s.stats.find? (·.1 = name)).map Prod.snd).getD {}

/-- Changes what `_get_stats` returns for the pass, or for folding if there is none. -/
def update (f : SinglePassStatistic → SinglePassStatistic) (s : PassStatistic) :
    Option (Pass L) → PassStatistic
  | none => { s with foldingStats := f s.foldingStats }
  | some p =>
    if s.stats.any (·.1 = p.userVisibleName) then
      { s with stats := s.stats.map fun e =>
          if e.1 = p.userVisibleName then (e.1, f e.2) else e }
    else { s with stats := s.stats ++ [(p.userVisibleName, f {})] }

def addInitialized (s : PassStatistic) (p : Option (Pass L)) : PassStatistic := s.update id p

def addExecuted (s : PassStatistic) (p : Option (Pass L)) : PassStatistic :=
  s.update (fun x => { x with totallyExecuted := x.totallyExecuted + 1 }) p

def addAborted (s : PassStatistic) (p : Option (Pass L)) (isTransform : Bool) : PassStatistic :=
  s.update (fun x =>
    if isTransform then { x with totallyExecuted := x.totallyExecuted + 1, failed := x.failed + 1 }
    else x) p

def addSuccess (s : PassStatistic) (p : Option (Pass L)) : PassStatistic :=
  s.update (fun x => { x with worked := x.worked + 1 }) p

def addFailure (s : PassStatistic) (p : Option (Pass L)) : PassStatistic :=
  s.update (fun x => { x with failed := x.failed + 1 }) p

/-- `add_committed_success`, where no name stands for folding. -/
def addCommittedSuccess (s : PassStatistic) (sizeDelta : Int) :
    Option Str → Except PyErr PassStatistic
  | none => .ok { s with foldingStats :=
      { s.foldingStats with totalSizeDelta := s.foldingStats.totalSizeDelta + sizeDelta } }
  | some name =>
    if s.stats.any (·.1 = name) then .ok { s with stats := s.stats.map fun e =>
      if e.1 = name then (e.1, { e.2 with totalSizeDelta := e.2.totalSizeDelta + sizeDelta }) else e }
    else .error .keyError

theorem find_modify (f : SinglePassStatistic → SinglePassStatistic)
    (stats : Dict Str SinglePassStatistic) (key name : Str) :
    ((stats.map fun e => if e.1 = key then (e.1, f e.2) else e).find? (·.1 = name)).map Prod.snd =
      ((stats.find? (·.1 = name)).map Prod.snd).map fun x => if key = name then f x else x := by
  have hkeys : (fun e : Str × SinglePassStatistic => decide (e.1 = name)) ∘
      (fun e => if e.1 = key then (e.1, f e.2) else e) = fun e => decide (e.1 = name) := by
    funext e
    simp only [Function.comp_apply]
    split
    · rfl
    · rfl
  rw [List.find?_map, hkeys]
  cases hfind : stats.find? fun e => decide (e.1 = name) with
  | none => rfl
  | some e =>
    have hname : e.1 = name := by simpa using List.find?_some hfind
    simp only [Option.map_some, hname, eq_comm (a := key)]
    split
    · rfl
    · rfl

theorem find_of_any {stats : Dict Str SinglePassStatistic} (h : stats.any (·.1 = name)) :
    ∃ x, (stats.find? (·.1 = name)).map Prod.snd = some x := by
  obtain ⟨e, he⟩ := Option.isSome_iff_exists.1 (List.find?_isSome.2 (List.any_eq_true.1 h))
  exact ⟨e.2, congrArg (Option.map Prod.snd) he⟩

theorem getStats_update (f : SinglePassStatistic → SinglePassStatistic) (s : PassStatistic)
    (p : Option (Pass L)) (name : Option Str) : (s.update f p).getStats name =
      if p.map (·.userVisibleName) = name then f (s.getStats name) else s.getStats name := by
  cases p with
  | none =>
    cases name with
    | none => rfl
    | some name => rfl
  | some p =>
    cases name with
    | none =>
      rw [update]
      split
      · rfl
      · rfl
    | some name =>
      simp only [update, Option.map_some, Option.some.injEq]
      split
      · rename_i hany
        simp only [getStats, find_modify]
        split
        · rename_i hname
          obtain ⟨x, hx⟩ := find_of_any (hname ▸ hany)
          rw [hx]
          rfl
        · rw [Option.map_id']
      · rename_i hany
        have hnone : s.stats.find? (·.1 = p.userVisibleName) = none :=
          List.find?_eq_none.2 fun e he hname => hany (List.any_eq_true.2 ⟨e, he, hname⟩)
        simp only [getStats, List.find?_append]
        split
        · rename_i hname
          rw [← hname, hnone]
          simp
        · rename_i hname
          simp [hname]

theorem getStats_addCommittedSuccess {s s' : PassStatistic}
    (h : s.addCommittedSuccess delta key = .ok s') (name : Option Str) : ∃ size,
      s'.getStats name = { s.getStats name with totalSizeDelta := size } := by
  rw [addCommittedSuccess.eq_def] at h
  split at h
  · cases h
    cases name with
    | none => exact ⟨_, rfl⟩
    | some name => exact ⟨_, rfl⟩
  · rename_i key
    split at h
    · cases h
      cases name with
      | none => exact ⟨_, rfl⟩
      | some name =>
        simp only [getStats, find_modify fun x : SinglePassStatistic =>
          { x with totalSizeDelta := x.totalSizeDelta + delta }]
        cases s.stats.find? (·.1 = name) with
        | none => exact ⟨_, rfl⟩
        | some e =>
          simp only [Option.map_some, Option.getD_some]
          split
          · exact ⟨_, rfl⟩
          · exact ⟨_, rfl⟩
    · cases h

end PassStatistic

end Cvise
