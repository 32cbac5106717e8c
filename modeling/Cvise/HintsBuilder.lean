import Cvise.Text
import Mathlib.Data.Nat.Digits.Lemmas

namespace Cvise
set_option autoImplicit true

/-- `HintsBuilder::Patch`. -/
structure BuiltPatch where
  l : Nat
  r : Nat
  v : Option Nat := none
deriving DecidableEq

/-- A call of `AddPatch`, with the offset of its location in the file. A range comes with its length,
which is not positive where the rewriter cannot measure it. -/
inductive PatchCall where
  | range (l : Nat) (len : Int) (replacement : Bytes)
  | insertion (l : Nat) (text : Bytes)
deriving DecidableEq

structure HintsBuilder where
  vocab : List Bytes := []
  hints : List (List BuiltPatch) := []
  currentHint : List BuiltPatch := []
deriving DecidableEq

namespace HintsBuilder

def lookupOrCreateVocabId (b : HintsBuilder) (s : Bytes) : Nat × HintsBuilder :=
  match b.vocab.idxOf? s with
  | some i => (i, b)
  | none => (b.vocab.length, { b with vocab := b.vocab ++ [s] })

def pushPatch (b : HintsBuilder) (p : BuiltPatch) : HintsBuilder :=
  { b with currentHint := b.currentHint ++ [p] }

def addPatch (b : HintsBuilder) : PatchCall → HintsBuilder
  | .range l len replacement =>
    -- This would be an invalid hint patch.
    if len ≤ 0 then b
    else if replacement = [] then b.pushPatch ⟨l, l + len.toNat, none⟩
    else
      let (v, b) := b.lookupOrCreateVocabId replacement
      b.pushPatch ⟨l, l + len.toNat, some v⟩
  | .insertion l text =>
    -- Empty insertion is a no-op.
    if text = [] then b
    else
      let (v, b) := b.lookupOrCreateVocabId text
      b.pushPatch ⟨l, l, some v⟩

/-- The end of a scope. -/
def finishCurrentHint (b : HintsBuilder) : HintsBuilder :=
  if b.currentHint = [] then b
  else { b with hints := b.hints ++ [b.currentHint], currentHint := [] }

def reverseOrder (b : HintsBuilder) : HintsBuilder := { b with hints := b.hints.reverse }

/-- The calls between one end of a scope and the next. -/
def addScope (b : HintsBuilder) (calls : List PatchCall) : HintsBuilder :=
  (calls.foldl addPatch b).finishCurrentHint

/-- What a transformation builds. -/
def build (scopes : List (List PatchCall)) (reversed : Bool) : HintsBuilder :=
  let b := scopes.foldl addScope {}
  if reversed then b.reverseOrder else b

/-- A number as a stream prints it. -/
def decimal (n : Nat) : Bytes :=
  if n = 0 then [48] else (Nat.digits 10 n).reverse.map fun d => UInt8.ofNat (48 + d)

def ascii (s : String) : Bytes := s.toUTF8.data.toList

def patchJson (p : BuiltPatch) : Bytes :=
  ascii "\x7b\"l\":" ++ decimal p.l ++ ascii ",\"r\":" ++ decimal p.r ++
    (match p.v with
    | none => []
    | some v => ascii ",\"v\":" ++ decimal v) ++ ascii "\x7d"

/-- The object that is printed for a hint. -/
def hintJson (patches : List BuiltPatch) : Bytes :=
  ascii "\x7b\"p\":[" ++ List.intercalate (ascii ",") (patches.map patchJson) ++ ascii "]\x7d"

def output (b : HintsBuilder) : Bytes :=
  decimal b.vocab.length ++ [10] ++ b.vocab.flatMap (· ++ [0]) ++
    b.hints.flatMap fun h => hintJson h ++ [10]

/-- A patch that a call asks for, with its text. -/
structure Wanted where
  l : Nat
  r : Nat
  text : Option Bytes
deriving DecidableEq

/-- The patch of a call, unless the call is one that adds none. -/
def wantedPatch : PatchCall → Option Wanted
  | .range l len replacement =>
    if 0 < len then some ⟨l, l + len.toNat, if replacement = [] then none else some replacement⟩
    else none
  | .insertion l text => if text = [] then none else some ⟨l, l, some text⟩

/-- The hints that the scopes ask for. -/
def wantedHints (scopes : List (List PatchCall)) (reversed : Bool) : List (List Wanted) :=
  let hints := (scopes.map fun calls => calls.filterMap wantedPatch).filter (· ≠ [])
  if reversed then hints.reverse else hints

/-- The patch has the range that is wanted, and its id stands for the text in the vocabulary. -/
def PatchFor (words : List Bytes) (p : BuiltPatch) (w : Wanted) : Prop :=
  p.l = w.l ∧ p.r = w.r ∧
    match w.text with
    | none => p.v = none
    | some s => ∃ i, p.v = some i ∧ words[i]? = some s

abbrev PatchesFor (words : List Bytes) : List BuiltPatch → List Wanted → Prop :=
  List.Forall₂ (PatchFor words)

/-- The builder has recorded the hints and the patches of the open scope. -/
structure Records (b : HintsBuilder) (done : List (List Wanted)) (pending : List Wanted) :
    Prop where
  nodup : b.vocab.Nodup
  hints : List.Forall₂ (PatchesFor b.vocab) b.hints done
  current : PatchesFor b.vocab b.currentHint pending

theorem PatchFor.extend (h : PatchFor words p w) (s : Bytes) : PatchFor (words ++ [s]) p w := by
  obtain ⟨hl, hr, hv⟩ := h
  refine ⟨hl, hr, ?_⟩
  cases htext : w.text with
  | none =>
    rw [htext] at hv
    exact hv
  | some t =>
    rw [htext] at hv
    obtain ⟨i, hi, hword⟩ := hv
    exact ⟨i, hi, List.getElem?_append_left (List.getElem?_eq_some_iff.1 hword).1 ▸ hword⟩

theorem Records.extend {b : HintsBuilder} (h : b.Records done pending) (hs : s ∉ b.vocab) :
    ({ b with vocab := b.vocab ++ [s] } : HintsBuilder).Records done pending := by
  refine ⟨List.nodup_append.2 ⟨h.nodup, List.nodup_singleton s, ?_⟩, ?_, ?_⟩
  · intro t ht t' ht' he
    rw [List.mem_singleton.1 ht'] at he
    exact hs (he ▸ ht)
  · exact h.hints.imp fun _ _ hh => hh.imp fun _ _ hp => hp.extend s
  · exact h.current.imp fun _ _ hp => hp.extend s

/-- The id that is looked up or made stands for its string. -/
theorem Records.lookup {b : HintsBuilder} (h : b.Records done pending) (s : Bytes) :
    (b.lookupOrCreateVocabId s).2.Records done pending ∧
      (b.lookupOrCreateVocabId s).2.vocab[(b.lookupOrCreateVocabId s).1]? = some s := by
  rw [lookupOrCreateVocabId]
  cases hi : b.vocab.idxOf? s with
  | some i =>
    obtain ⟨hlt, hword, -⟩ := List.idxOf?_eq_some_iff.1 hi
    exact ⟨h, List.getElem?_eq_some_iff.2 ⟨hlt, hword⟩⟩
  | none =>
    refine ⟨h.extend (List.idxOf?_eq_none_iff.1 hi), ?_⟩
    rw [List.getElem?_append_right (Nat.le_refl _), Nat.sub_self]
    rfl

theorem Records.push {b : HintsBuilder} (h : b.Records done pending) (hp : PatchFor b.vocab p w) :
    (b.pushPatch p).Records done (pending ++ [w]) :=
  ⟨h.nodup, h.hints, List.rel_append h.current (.cons hp .nil)⟩

theorem Records.addPatch {b : HintsBuilder} (h : b.Records done pending) (call : PatchCall) :
    (b.addPatch call).Records done (pending ++ (wantedPatch call).toList) := by
  cases call with
  | range l len replacement =>
    rw [HintsBuilder.addPatch, wantedPatch]
    by_cases hlen : len ≤ 0
    · rw [if_pos hlen, if_neg (by omega : ¬ 0 < len)]
      exact (List.append_nil pending).symm ▸ h
    · rw [if_neg hlen, if_pos (by omega : 0 < len)]
      by_cases hempty : replacement = []
      · rw [if_pos hempty, if_pos hempty]
        exact h.push ⟨rfl, rfl, rfl⟩
      · rw [if_neg hempty, if_neg hempty]
        obtain ⟨hrec, hword⟩ := h.lookup replacement
        exact hrec.push ⟨rfl, rfl, _, rfl, hword⟩
  | insertion l text =>
    rw [HintsBuilder.addPatch, wantedPatch]
    by_cases hempty : text = []
    · rw [if_pos hempty, if_pos hempty]
      exact (List.append_nil pending).symm ▸ h
    · rw [if_neg hempty, if_neg hempty]
      obtain ⟨hrec, hword⟩ := h.lookup text
      exact hrec.push ⟨rfl, rfl, _, rfl, hword⟩

theorem Records.finish {b : HintsBuilder} (h : b.Records done pending) :
    b.finishCurrentHint.Records (done ++ [pending].filter (· ≠ [])) [] := by
  rw [finishCurrentHint]
  have hcurrent := h.current
  by_cases hempty : b.currentHint = []
  · rw [hempty] at hcurrent
    obtain rfl := List.forall₂_nil_left_iff.1 hcurrent
    rw [if_pos hempty]
    exact ⟨h.nodup, by simpa using h.hints, hempty ▸ .nil⟩
  · have hne : pending ≠ [] := by
      rintro rfl
      exact hempty (List.forall₂_nil_right_iff.1 hcurrent)
    rw [if_neg hempty, List.filter_cons_of_pos (by simpa using hne)]
    exact ⟨h.nodup, List.rel_append h.hints (.cons hcurrent .nil), .nil⟩

theorem Records.addScope {b : HintsBuilder} (h : b.Records done []) (calls : List PatchCall) :
    (b.addScope calls).Records
      (done ++ [calls.filterMap wantedPatch].filter (· ≠ [])) [] := by
  have hcalls (pending : List Wanted) (b : HintsBuilder) (h : b.Records done pending) :
      (calls.foldl HintsBuilder.addPatch b).Records done
        (pending ++ calls.filterMap wantedPatch) := by
    induction calls generalizing b pending with
    | nil => exact (List.append_nil pending).symm ▸ h
    | cons call calls ih =>
      have hrest := ih _ _ (h.addPatch call)
      rw [List.append_assoc] at hrest
      rw [List.foldl_cons, List.filterMap_cons]
      cases hw : wantedPatch call with
      | none =>
        rw [hw] at hrest
        exact hrest
      | some w =>
        rw [hw] at hrest
        exact hrest
  exact (hcalls [] b h).finish

/-- The builder ends with exactly the hints that the scopes ask for. -/
theorem build_records (scopes : List (List PatchCall)) (reversed : Bool) :
    (build scopes reversed).Records (wantedHints scopes reversed) [] := by
  have hscopes (done : List (List Wanted)) (b : HintsBuilder) (h : b.Records done []) :
      (scopes.foldl HintsBuilder.addScope b).Records
        (done ++ (scopes.map fun calls => calls.filterMap wantedPatch).filter (· ≠ [])) [] := by
    induction scopes generalizing b done with
    | nil => exact (List.append_nil done).symm ▸ h
    | cons calls scopes ih =>
      have hrest := ih _ _ (h.addScope calls)
      rw [List.append_assoc, ← List.filter_append] at hrest
      exact hrest
  have hall := hscopes [] {} ⟨List.nodup_nil, .nil, .nil⟩
  rw [build, wantedHints]
  cases reversed with
  | false => exact hall
  | true => exact ⟨hall.nodup, List.rel_reverse hall.hints, hall.current⟩

end HintsBuilder

end Cvise
