import Cvise.ProcessMonitor
import Mathlib.Data.List.Induction

namespace Cvise
set_option autoImplicit true

namespace ProcessMonitor

/-- One of the last `n` elements is not forgotten. -/
theorem mem_drop_of_few {a b : List Pid} (h : b.length < n) :
    x ∈ (a ++ x :: b).drop ((a ++ x :: b).length - n) := by
  have hle : (a ++ x :: b).length - n ≤ a.length := by
    rw [List.length_append, List.length_cons]
    omega
  rw [List.drop_append_of_le_length hle]
  exact List.mem_append_right _ List.mem_cons_self

theorem appendRecent_drop (l : List Pid) (n x : Nat) :
    appendRecent n (l.drop (l.length - n)) x = (l ++ [x]).drop ((l ++ [x]).length - n) := by
  rw [appendRecent, List.length_drop, List.length_append, List.length_singleton]
  by_cases hn : n ≤ l.length
  · rw [← List.drop_append_of_le_length (Nat.sub_le _ _), List.drop_drop]
    congr 1
    omega
  · have hzero : l.length - n = 0 := by omega
    rw [hzero, List.drop_zero, Nat.sub_zero]

theorem deaths_append (es fs : List Action) : deaths (es ++ fs) = deaths es ++ deaths fs :=
  List.filterMap_append

theorem mem_deaths : w ∈ deaths es ↔ .workerStopped w ∈ es := by
  rw [deaths, List.mem_filterMap]
  constructor
  · rintro ⟨a, ha, hw⟩
    cases a with
    | workerStopped v => cases hw; exact ha
    | workerStarted v => cases hw
    | pidQueueEvent e => cases hw
  · exact fun h => ⟨_, h, rfl⟩

theorem deaths_other (h : Action.stoppedWorker a = none) : deaths (es ++ [a]) = deaths es := by
  rw [deaths_append, deaths, deaths, List.filterMap_cons, h, List.filterMap_nil, List.append_nil]

theorem Interleaving.before (h : Interleaving n (es ++ fs)) : Interleaving n es where
  started_once := by
    have hall := h.started_once
    rw [List.filterMap_append] at hall
    exact hall.of_append_left
  stopped_once := by
    have hall := h.stopped_once
    rw [deaths_append] at hall
    exact hall.of_append_left
  started_first := by
    rintro before w after rfl
    exact h.started_first before w (after ++ fs) (List.append_assoc _ _ _)
  streams := by
    intro child
    obtain ⟨returncode, hall⟩ := h.streams child
    rw [List.filterMap_append] at hall
    exact ⟨returncode, (List.prefix_append _ _).trans hall⟩
  one_worker e e' he he' :=
    h.one_worker e e' (List.mem_append_left _ he) (List.mem_append_left _ he')
  remembered := by
    rintro before e mid after rfl
    apply h.remembered before e mid (after ++ fs)
    rw [List.append_assoc, List.cons_append]

theorem Interleaving.not_started (h : Interleaving n (es ++ [.workerStarted w])) :
    .workerStarted w ∉ es := by
  intro hmem
  have hall := h.started_once
  rw [List.filterMap_append] at hall
  exact (List.nodup_append.1 hall).2.2 w (List.mem_filterMap.2 ⟨_, hmem, rfl⟩) w List.mem_cons_self rfl

theorem Interleaving.not_stopped (h : Interleaving n (es ++ [.workerStopped w])) : w ∉ deaths es := by
  intro hmem
  have hall := h.stopped_once
  rw [deaths_append] at hall
  exact (List.nodup_append.1 hall).2.2 w hmem w List.mem_cons_self rfl

theorem Interleaving.started_of_stopped (h : Interleaving n es) (hw : w ∈ deaths es) :
    .workerStarted w ∈ es := by
  obtain ⟨before, after, rfl⟩ := List.append_of_mem (mem_deaths.1 hw)
  exact List.mem_append_left _ (h.started_first before w after rfl)

/-- When an event comes, its worker is on the list of the dead ones exactly if it has stopped. -/
theorem Interleaving.posthumous_iff (h : Interleaving n (es ++ [.pidQueueEvent e])) :
    e.workerPid ∈ (deaths es).drop ((deaths es).length - n) ↔ e.workerPid ∈ deaths es := by
  constructor
  · exact List.mem_of_mem_drop
  · intro hmem
    obtain ⟨before, mid, rfl⟩ := List.append_of_mem (mem_deaths.1 hmem)
    have hfew := h.remembered before e mid [] (by rw [List.append_assoc, List.cons_append])
    rw [deaths_append]
    exact mem_drop_of_few hfew

def childrenOf (m : ProcessMonitor) (w : Pid) : List Pid := (m.workerToChildPids w).getD []

theorem onWorkerStarted_pids (m : ProcessMonitor) (w : Pid) : (m.onWorkerStarted w).workerToChildPids =
    Function.update m.workerToChildPids w (some (m.childrenOf w)) := rfl

theorem childrenOf_onWorkerStarted (m : ProcessMonitor) (w : Pid) :
    (m.onWorkerStarted w).childrenOf v = m.childrenOf v := by
  rw [childrenOf, onWorkerStarted_pids, Function.update_apply]
  split
  · rename_i h
    rw [h]
    rfl
  · rfl

theorem onWorkerStopped_ok {m : ProcessMonitor} (h : m.workerToChildPids w = some l) :
    ∃ m', m.onWorkerStopped w = .ok m' ∧ m'.maxlen = m.maxlen ∧
      m'.recentDeadWorkers = appendRecent m.maxlen m.recentDeadWorkers w ∧
      m'.workerToChildPids = Function.update m.workerToChildPids w none ∧
      m'.killed = m.killed ++ m.childrenOf w := by
  rw [onWorkerStopped, childrenOf, h]
  exact ⟨_, rfl, rfl, rfl, rfl, rfl⟩

theorem mem_updateChildren : c ∈ updateChildren l e ↔
    (e.type = .started ∧ c = e.childPid) ∨ (c ∈ l ∧ (e.type = .started ∨ c ≠ e.childPid)) := by
  rw [updateChildren]
  split
  · rename_i h
    rw [List.mem_insert_iff]
    tauto
  · rename_i h
    rw [List.mem_filter, decide_eq_true_iff]
    tauto

/-- An event about a child of a dead worker only gets the child killed. -/
theorem onPidQueueEvent_posthumous {m : ProcessMonitor} (h : e.workerPid ∈ m.recentDeadWorkers) :
    m.onPidQueueEvent e = { m with killed := m.killed ++ [e.childPid] } := by
  simp only [onPidQueueEvent, h, if_true, true_or]

theorem onPidQueueEvent_alive {m : ProcessMonitor} (h : e.workerPid ∉ m.recentDeadWorkers) :
    (m.onPidQueueEvent e).workerToChildPids = Function.update m.workerToChildPids e.workerPid
        (some (updateChildren (m.childrenOf e.workerPid) e)) ∧
      (m.onPidQueueEvent e).killed =
        if e.type = .orphaned then m.killed ++ [e.childPid] else m.killed := by
  simp only [onPidQueueEvent, h, if_false, false_or]
  exact ⟨rfl, trivial⟩

/-- What the monitor knows after the actions so far. -/
structure Tracks (n : Nat) (es : List Action) (m : ProcessMonitor) : Prop where
  maxlen_eq : m.maxlen = n
  dead : m.recentDeadWorkers = (deaths es).drop ((deaths es).length - n)
  present : ∀ w, .workerStarted w ∈ es → w ∉ deaths es → m.workerToChildPids w ≠ none
  gone : ∀ w, w ∈ deaths es → m.workerToChildPids w = none
  reported : ∀ w, ∀ c ∈ m.childrenOf w, ∃ t, .pidQueueEvent ⟨w, c, t⟩ ∈ es
  accounted : ∀ w c, .pidQueueEvent ⟨w, c, .started⟩ ∈ es → .pidQueueEvent ⟨w, c, .finished⟩ ∉ es →
    c ∈ m.killed ∨ c ∈ m.childrenOf w
  justified : ∀ c ∈ m.killed, ∃ w, (∃ t, .pidQueueEvent ⟨w, c, t⟩ ∈ es) ∧
    (w ∈ deaths es ∨ .pidQueueEvent ⟨w, c, .orphaned⟩ ∈ es)

namespace Tracks

theorem init (parallelTests : Nat) : Tracks (parallelTests * 10) [] (create parallelTests) where
  maxlen_eq := rfl
  dead := List.drop_nil.symm
  present _ h := absurd h List.not_mem_nil
  gone _ h := absurd h List.not_mem_nil
  reported _ _ h := absurd h List.not_mem_nil
  accounted _ _ h := absurd h List.not_mem_nil
  justified _ h := absurd h List.not_mem_nil

theorem workerStarted (ht : Tracks n es m) (h : Interleaving n (es ++ [.workerStarted w])) :
    Tracks n (es ++ [.workerStarted w]) (m.onWorkerStarted w) := by
  have hdeaths : deaths (es ++ [.workerStarted w]) = deaths es := deaths_other rfl
  have halive : w ∉ deaths es := fun hw => h.not_started (h.before.started_of_stopped hw)
  have hevent : ∀ e, .pidQueueEvent e ∈ es ++ [.workerStarted w] ↔ .pidQueueEvent e ∈ es := by
    intro e
    simp
  constructor
  case maxlen_eq => exact ht.maxlen_eq
  case dead =>
    rw [hdeaths, ← ht.dead]
    apply List.erase_of_not_mem
    rw [ht.dead]
    exact fun hw => halive (List.mem_of_mem_drop hw)
  case present =>
    intro v hv hdead
    rw [hdeaths] at hdead
    rw [onWorkerStarted_pids, Function.update_apply]
    split
    · exact Option.some_ne_none _
    · rename_i hne
      apply ht.present v _ hdead
      rcases List.mem_append.1 hv with hv | hv
      · exact hv
      · cases List.mem_singleton.1 hv
        exact absurd rfl hne
  case gone =>
    intro v hv
    rw [hdeaths] at hv
    rw [onWorkerStarted_pids, Function.update_of_ne fun heq : v = w => halive (heq ▸ hv)]
    exact ht.gone v hv
  case reported =>
    intro v c hc
    rw [childrenOf_onWorkerStarted] at hc
    simp only [hevent]
    exact ht.reported v c hc
  case accounted =>
    intro v c hstarted hfinished
    rw [hevent] at hstarted hfinished
    rw [childrenOf_onWorkerStarted]
    exact ht.accounted v c hstarted hfinished
  case justified =>
    simp only [hevent, hdeaths]
    exact ht.justified

theorem workerStopped (ht : Tracks n es m) (h : Interleaving n (es ++ [.workerStopped w])) :
    ∃ m', m.onWorkerStopped w = .ok m' ∧ Tracks n (es ++ [.workerStopped w]) m' := by
  have hdeaths : deaths (es ++ [.workerStopped w]) = deaths es ++ [w] := deaths_append _ _
  have hevent : ∀ e, .pidQueueEvent e ∈ es ++ [.workerStopped w] ↔ .pidQueueEvent e ∈ es := by
    intro e
    simp
  have hpresent := ht.present w (h.started_first es w [] rfl) h.not_stopped
  obtain ⟨l, hl⟩ := Option.ne_none_iff_exists'.1 hpresent
  obtain ⟨m', hm', hmaxlen, hdead, hchildren, hkilled⟩ := onWorkerStopped_ok hl
  have hown : m'.childrenOf w = [] := by rw [childrenOf, hchildren, Function.update_self]; rfl
  have hother : ∀ v, v ≠ w → m'.childrenOf v = m.childrenOf v := by
    intro v hne
    rw [childrenOf, hchildren, Function.update_of_ne hne]
    rfl
  refine ⟨m', hm', ?_⟩
  constructor
  case maxlen_eq => rw [hmaxlen, ht.maxlen_eq]
  case dead => rw [hdead, ht.dead, ht.maxlen_eq, hdeaths, appendRecent_drop]
  case present =>
    intro v hv hdead'
    rw [hdeaths, List.mem_append, List.mem_singleton, not_or] at hdead'
    rw [hchildren, Function.update_of_ne hdead'.2]
    apply ht.present v _ hdead'.1
    simpa using hv
  case gone =>
    intro v hv
    rw [hchildren, Function.update_apply]
    split
    · rfl
    · rename_i hne
      rw [hdeaths, List.mem_append, List.mem_singleton] at hv
      exact ht.gone v (hv.resolve_right hne)
  case reported =>
    intro v c hc
    simp only [hevent]
    by_cases hv : v = w
    · rw [hv, hown] at hc
      cases hc
    · rw [hother v hv] at hc
      exact ht.reported v c hc
  case accounted =>
    intro v c hstarted hfinished
    rw [hevent] at hstarted hfinished
    rw [hkilled, List.mem_append]
    rcases ht.accounted v c hstarted hfinished with hc | hc
    · exact .inl (.inl hc)
    · by_cases hv : v = w
      · exact .inl (.inr (hv ▸ hc))
      · exact .inr ((hother v hv).symm ▸ hc)
  case justified =>
    intro c hc
    simp only [hevent, hdeaths, List.mem_append, List.mem_singleton]
    rw [hkilled] at hc
    rcases List.mem_append.1 hc with hc | hc
    · obtain ⟨v, hreported, hv⟩ := ht.justified c hc
      exact ⟨v, hreported, hv.imp .inl id⟩
    · exact ⟨w, ht.reported w c hc, .inl (.inr rfl)⟩

theorem posthumousEvent (ht : Tracks n es m) (hdead : e.workerPid ∈ deaths es) :
    Tracks n (es ++ [.pidQueueEvent e]) { m with killed := m.killed ++ [e.childPid] } := by
  have hdeaths : deaths (es ++ [.pidQueueEvent e]) = deaths es := deaths_other rfl
  have hevent : ∀ e', .pidQueueEvent e' ∈ es → .pidQueueEvent e' ∈ es ++ [.pidQueueEvent e] :=
    fun _ => List.mem_append_left _
  constructor
  case maxlen_eq => exact ht.maxlen_eq
  case dead => rw [hdeaths, ← ht.dead]
  case present =>
    intro v hv hdead
    rw [hdeaths] at hdead
    exact ht.present v (by simpa using hv) hdead
  case gone =>
    intro v hv
    rw [hdeaths] at hv
    exact ht.gone v hv
  case reported =>
    intro v c hc
    obtain ⟨t, ht⟩ := ht.reported v c hc
    exact ⟨t, hevent _ ht⟩
  case accounted =>
    intro v c hstarted hfinished
    rcases List.mem_append.1 hstarted with hstarted | hstarted
    · exact (ht.accounted v c hstarted fun h => hfinished (hevent _ h)).imp
        (List.mem_append_left _) id
    · cases List.mem_singleton.1 hstarted
      exact .inl (List.mem_append_right _ List.mem_cons_self)
  case justified =>
    intro c hc
    rw [hdeaths]
    rcases List.mem_append.1 hc with hc | hc
    · obtain ⟨v, ⟨t, ht⟩, hv⟩ := ht.justified c hc
      exact ⟨v, ⟨t, hevent _ ht⟩, hv.imp id (hevent _)⟩
    · cases List.mem_singleton.1 hc
      exact ⟨e.workerPid, ⟨e.type, List.mem_append_right _ List.mem_cons_self⟩, .inl hdead⟩

theorem aliveEvent (ht : Tracks n es m) (halive : e.workerPid ∉ deaths es)
    (hchildren : m'.workerToChildPids = Function.update m.workerToChildPids e.workerPid
      (some (updateChildren (m.childrenOf e.workerPid) e)))
    (hkilled : m'.killed = if e.type = .orphaned then m.killed ++ [e.childPid] else m.killed)
    (hmaxlen : m'.maxlen = m.maxlen) (hrecent : m'.recentDeadWorkers = m.recentDeadWorkers) :
    Tracks n (es ++ [.pidQueueEvent e]) m' := by
  have hdeaths : deaths (es ++ [.pidQueueEvent e]) = deaths es := deaths_other rfl
  have hevent : ∀ e', .pidQueueEvent e' ∈ es → .pidQueueEvent e' ∈ es ++ [.pidQueueEvent e] :=
    fun _ => List.mem_append_left _
  have hlast : .pidQueueEvent e ∈ es ++ [.pidQueueEvent e] := List.mem_append_right _ List.mem_cons_self
  have hown : m'.childrenOf e.workerPid = updateChildren (m.childrenOf e.workerPid) e := by
    rw [childrenOf, hchildren, Function.update_self]
    rfl
  have hother : ∀ v, v ≠ e.workerPid → m'.childrenOf v = m.childrenOf v := by
    intro v hne
    rw [childrenOf, hchildren, Function.update_of_ne hne]
    rfl
  have hmono : ∀ c ∈ m.killed, c ∈ m'.killed := by
    intro c hc
    rw [hkilled]
    split
    · exact List.mem_append_left _ hc
    · exact hc
  constructor
  case maxlen_eq => rw [hmaxlen, ht.maxlen_eq]
  case dead => rw [hrecent, hdeaths, ht.dead]
  case present =>
    intro v hv hdead
    rw [hdeaths] at hdead
    rw [hchildren, Function.update_apply]
    split
    · exact Option.some_ne_none _
    · exact ht.present v (by simpa using hv) hdead
  case gone =>
    intro v hv
    rw [hdeaths] at hv
    rw [hchildren, Function.update_of_ne fun heq : v = e.workerPid => halive (heq ▸ hv)]
    exact ht.gone v hv
  case reported =>
    intro v c hc
    by_cases hv : v = e.workerPid
    · subst hv
      rw [hown, mem_updateChildren] at hc
      rcases hc with ⟨_, rfl⟩ | ⟨hc, _⟩
      · exact ⟨e.type, hlast⟩
      · obtain ⟨t, ht⟩ := ht.reported _ c hc
        exact ⟨t, hevent _ ht⟩
    · rw [hother v hv] at hc
      obtain ⟨t, ht⟩ := ht.reported v c hc
      exact ⟨t, hevent _ ht⟩
  case accounted =>
    intro v c hstarted hfinished
    rcases List.mem_append.1 hstarted with hstarted | hstarted
    · rcases ht.accounted v c hstarted fun h => hfinished (hevent _ h) with hc | hc
      · exact .inl (hmono c hc)
      · by_cases hv : v = e.workerPid
        · subst hv
          rw [hown, mem_updateChildren, hkilled]
          by_cases hkeep : e.type = .started ∨ c ≠ e.childPid
          · exact .inr (.inr ⟨hc, hkeep⟩)
          · -- Its end is reported, and it is not that it finished.
            rw [not_or, not_not] at hkeep
            obtain ⟨htype, rfl⟩ := hkeep
            have horphaned : e.type = .orphaned := by
              cases htype' : e.type with
              | started => exact absurd htype' htype
              | finished => exact absurd (htype' ▸ hlast) hfinished
              | orphaned => rfl
            rw [if_pos horphaned]
            exact .inl (List.mem_append_right _ List.mem_cons_self)
        · exact .inr ((hother v hv).symm ▸ hc)
    · cases List.mem_singleton.1 hstarted
      rw [hown, mem_updateChildren]
      exact .inr (.inl ⟨rfl, rfl⟩)
  case justified =>
    intro c hc
    rw [hdeaths]
    have hold : c ∈ m.killed → ∃ w, (∃ t, .pidQueueEvent ⟨w, c, t⟩ ∈ es ++ [.pidQueueEvent e]) ∧
        (w ∈ deaths es ∨ .pidQueueEvent ⟨w, c, .orphaned⟩ ∈ es ++ [.pidQueueEvent e]) := by
      intro hc
      obtain ⟨v, ⟨t, ht⟩, hv⟩ := ht.justified c hc
      exact ⟨v, ⟨t, hevent _ ht⟩, hv.imp id (hevent _)⟩
    rw [hkilled] at hc
    split at hc
    · rename_i horphaned
      rcases List.mem_append.1 hc with hc | hc
      · exact hold hc
      · cases List.mem_singleton.1 hc
        exact ⟨e.workerPid, ⟨e.type, hlast⟩, .inr (horphaned ▸ hlast)⟩
    · exact hold hc

theorem pidQueueEvent (ht : Tracks n es m) (h : Interleaving n (es ++ [.pidQueueEvent e])) :
    Tracks n (es ++ [.pidQueueEvent e]) (m.onPidQueueEvent e) := by
  have hrecent : e.workerPid ∈ m.recentDeadWorkers ↔ e.workerPid ∈ deaths es := by
    rw [ht.dead, h.posthumous_iff]
  by_cases hdead : e.workerPid ∈ deaths es
  · rw [onPidQueueEvent_posthumous (hrecent.2 hdead)]
    exact ht.posthumousEvent hdead
  · obtain ⟨hchildren, hkilled⟩ := onPidQueueEvent_alive fun hmem => hdead (hrecent.1 hmem)
    exact ht.aliveEvent hdead hchildren hkilled rfl rfl

theorem step (ht : Tracks n es m) (h : Interleaving n (es ++ [a])) :
    ∃ m', m.step a = .ok m' ∧ Tracks n (es ++ [a]) m' := by
  cases a with
  | workerStarted w => exact ⟨_, rfl, ht.workerStarted h⟩
  | workerStopped w => exact ht.workerStopped h
  | pidQueueEvent e => exact ⟨_, rfl, ht.pidQueueEvent h⟩

theorem run (h : Interleaving (parallelTests * 10) es) :
    ∃ m, ProcessMonitor.run parallelTests es = .ok m ∧ Tracks (parallelTests * 10) es m := by
  induction es using List.reverseRecOn with
  | nil => exact ⟨_, rfl, init parallelTests⟩
  | append_singleton es a ih =>
    obtain ⟨m, hm, ht⟩ := ih h.before
    obtain ⟨m', hm', ht'⟩ := ht.step h
    refine ⟨m', ?_, ht'⟩
    rw [ProcessMonitor.run, List.foldlM_append, except_bind_ok]
    refine ⟨m, hm, ?_⟩
    rw [List.foldlM_cons, hm']
    rfl

end Tracks

/-- No child of a worker is lost, in whatever order the hooks and the queue report. -/
theorem children_killed (parallelTests : Nat) (actions : List Action)
    (h : Interleaving (parallelTests * 10) actions) :
    ∃ m, run parallelTests actions = .ok m ∧
      (∀ w, .workerStopped w ∈ actions → m.workerToChildPids w = none ∧
        ∀ c, .pidQueueEvent ⟨w, c, .started⟩ ∈ actions → .pidQueueEvent ⟨w, c, .finished⟩ ∉ actions →
          c ∈ m.killed) ∧
      ∀ before after, actions = before ++ after → ∃ m', run parallelTests before = .ok m' ∧
        ∀ w c t, .pidQueueEvent ⟨w, c, t⟩ ∈ actions → c ∈ m'.killed →
          .workerStopped w ∈ before ∨ .pidQueueEvent ⟨w, c, .orphaned⟩ ∈ before := by
  obtain ⟨m, hm, ht⟩ := Tracks.run h
  refine ⟨m, hm, ?_, ?_⟩
  · intro w hw
    have hgone := ht.gone w (mem_deaths.2 hw)
    refine ⟨hgone, fun c hstarted hfinished => ?_⟩
    rcases ht.accounted w c hstarted hfinished with hc | hc
    · exact hc
    · rw [childrenOf, hgone] at hc
      cases hc
  · rintro before after rfl
    obtain ⟨m', hm', ht'⟩ := Tracks.run h.before
    refine ⟨m', hm', fun w c t hmem hc => ?_⟩
    obtain ⟨v, ⟨t', hv⟩, hjust⟩ := ht'.justified c hc
    have hvw : v = w := h.one_worker _ _ (List.mem_append_left _ hv) hmem rfl
    rw [hvw, mem_deaths] at hjust
    exact hjust

/-- A worker dies while a child runs, and starts another one that is reported only then. -/
def lateChild : List Action :=
  [.workerStarted 1, .pidQueueEvent ⟨1, 100, .started⟩, .workerStopped 1,
    .pidQueueEvent ⟨1, 101, .started⟩]

theorem lateChild_interleaving : Interleaving 10 lateChild where
  started_once := by decide
  stopped_once := by decide
  started_first := by
    intro before w after h
    rcases before with _ | ⟨a, _ | ⟨b, _ | ⟨c, _ | ⟨d, before⟩⟩⟩⟩ <;> simp [lateChild] at h ⊢
    exact .inl (h.2.2.1 ▸ h.1)
  streams := by
    intro child
    refine ⟨none, ?_⟩
    simp only [lateChild, List.filterMap_cons, Action.eventOf, notifierStream]
    by_cases h : 100 = child
    · subst h
      decide
    · by_cases h' : 101 = child
      · subst h'
        decide
      · simp [h, h']
  one_worker := by
    intro e e' he he' _
    simp [lateChild] at he he'
    rcases he with rfl | rfl <;> rcases he' with rfl | rfl <;> rfl
  remembered := by
    intro before e mid after h
    have hone : (deaths lateChild).length = 1 := by decide
    rw [h, List.append_assoc, deaths_append, List.cons_append, deaths, deaths, List.filterMap_cons,
      List.filterMap_append] at hone
    simp only [Action.stoppedWorker, List.length_append, List.length_cons] at hone
    rw [deaths]
    omega

theorem children_killed_late : ∃ m, run 1 lateChild = .ok m ∧ 100 ∈ m.killed ∧ 101 ∈ m.killed ∧
    m.workerToChildPids 1 = none := by
  obtain ⟨m, hm, hstopped, _⟩ := children_killed 1 lateChild lateChild_interleaving
  obtain ⟨hgone, hkilled⟩ := hstopped 1 (by decide)
  exact ⟨m, hm, hkilled 100 (by decide) (by decide), hkilled 101 (by decide) (by decide), hgone⟩

end ProcessMonitor

end Cvise
