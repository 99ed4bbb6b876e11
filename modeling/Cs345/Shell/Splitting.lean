import Cs345.Shell.Stages
import Mathlib.Data.List.Forall2

namespace Shell

section Calls

def stageReads (args : Args) : ℕ → ℕ → List ℕ
  | 0, i => [i]
  | n + 1, i =>
    match args i with
    | none => [i]
    | some w => if w = bar then [i] else i :: stageReads args n (i + 1)

def nextArgReads (args : Args) (nextPipe : ℕ) : List ℕ :=
  if nextPipe < SIZE then stageReads args (SIZE - nextPipe) nextPipe else []

structure Call where
  tempArgs : Args
  reads : List ℕ

def nextArgs (args : Args) : ℕ → Args → ℕ → Option (List Call)
  | 0, _, _ => some []
  | n + 1, tempArgs, nextPipe =>
    (nextArg args tempArgs nextPipe).bind fun (t, c) =>
      (nextArgs args n t c).map (⟨t, nextArgReads args nextPipe⟩ :: ·)

def Delivers (tempArgs : Args) (ws : List Word) : Prop := ∀ j ≤ ws.length, tempArgs j = ws[j]?

def isStageWord (args : Args) (i : ℕ) : Bool := (args i).any (· ≠ bar)

structure Splits (v : ArgVector) (calls : List Call) : Prop where
  stages : List.Forall₂ (fun call st => Delivers call.tempArgs st) calls v.stages
  once : calls.flatMap (fun call => call.reads.filter (isStageWord v.args)) =
    (List.range v.numArgs).filter (isStageWord v.args)
  reads : ∀ call ∈ calls, ∀ i ∈ call.reads, i ≤ v.numArgs

def SplitsPipeline (v : ArgVector) (tempArgs : Args) : Prop :=
  ∃ calls, nextArgs v.args (v.pipeCounter + 1) tempArgs 0 = some calls ∧ Splits v calls

end Calls

section Reads
variable {v : ArgVector} {c : ℕ}

theorem stageReads_eq (n : ℕ) : ∀ i, SIZE - i = n → i ≤ v.numArgs →
    stageReads v.args n i =
      List.range' i (((wordsAt v.args i).takeWhile (· ≠ bar)).length + 1) := by
  induction n with
  | zero =>
    intro i hn hi
    have := v.lt_size
    omega
  | succ n ih =>
    intro i hn hi
    cases hw : v.args i with
    | none => simp [stageReads, hw, wordsAt_none hw]
    | some w =>
      have hlt : i < SIZE := by omega
      by_cases hbar : w = bar
      · simp [stageReads, hw, hbar, wordsAt_some hlt hw]
      · have hi' : i + 1 ≤ v.numArgs := by
          by_contra hno
          have hnull : v.args i = none := (show i = v.numArgs by omega) ▸ v.null
          cases hnull.symm.trans hw
        have htake : (wordsAt v.args i).takeWhile (· ≠ bar) =
            w :: (wordsAt v.args (i + 1)).takeWhile (· ≠ bar) := by
          rw [wordsAt_some hlt hw, List.takeWhile_cons_of_pos (by simpa using hbar)]
        rw [htake, List.length_cons, List.range'_succ]
        simp only [stageReads, hw, if_neg hbar]
        rw [ih (i + 1) (by omega) hi']

theorem nextArgReads_eq {seg : List Word} {more : List (List Word)} (hc : c ≤ v.numArgs)
    (h : (wordsAt v.args c).splitOn bar = seg :: more) :
    nextArgReads v.args c = List.range' c (seg.length + 1) ∧ c + seg.length ≤ v.numArgs := by
  have hlt := v.lt_size
  have hlen := ArgVector.length_wordsAt hc
  have hseg := Fields.takeWhile_of_splitOn h
  have hle : seg.length ≤ (wordsAt v.args c).length :=
    hseg ▸ (List.takeWhile_sublist _).length_le
  rw [nextArgReads, if_pos (by omega), stageReads_eq _ c rfl hc, hseg]
  exact ⟨rfl, by omega⟩

theorem delivers_of_words {t : Args} {ws : List Word} (h : words t = ws) (hlt : ws.length < SIZE) :
    Delivers t ws := by
  intro j hj
  have := entry_of_wordsAt ws 0 h (by omega) j hj
  rwa [Nat.zero_add] at this

theorem isStageWord_null : isStageWord v.args v.numArgs = false := by
  rw [isStageWord, v.null]
  rfl

end Reads

section Walk
variable {v : ArgVector} {c : ℕ} {t : Args} {seg : List Word} {more : List (List Word)}

theorem nextArg_empty (hc : c ≤ v.numArgs) (h : (wordsAt v.args c).splitOn bar = [] :: more) :
    nextArg v.args t c = some (t, c) := by
  have hlt := v.lt_size
  have hsize : c < SIZE := by omega
  rw [nextArg, if_pos hsize]
  cases hw : v.args c with
  | none => rfl
  | some w =>
    by_cases hbar : w = bar
    · simp [hbar]
    · rw [wordsAt_some hsize hw, List.splitOn_cons_eq_if_modifyHead,
        if_neg (by simpa using hbar)] at h
      obtain ⟨first, rest, heq⟩ := List.exists_cons_of_ne_nil
        (List.splitOn_ne_nil bar (wordsAt v.args (c + 1)))
      rw [heq] at h
      cases h

theorem nextArgs_stuck (hnext : nextArg v.args t c = some (t, c)) (n : ℕ) :
    nextArgs v.args n t c = some (List.replicate n ⟨t, nextArgReads v.args c⟩) := by
  induction n with
  | zero => rfl
  | succ n ih => simp [nextArgs, hnext, ih, List.replicate_succ]

theorem forall₂_replicate {α β : Type} {r : α → β → Prop} {a : α} (l : List β) :
    List.Forall₂ r (List.replicate l.length a) l ↔ ∀ b ∈ l, r a b := by
  induction l with
  | nil => simp
  | cons b l ih =>
    rw [List.length_cons, List.replicate_succ, List.forall₂_cons, ih, List.forall_mem_cons]

theorem delivers_nil (h : t 0 = none) : Delivers t [] := by
  intro j hj
  obtain rfl : j = 0 := Nat.le_zero.mp hj
  exact h

theorem Delivers.eq_nil {ws : List Word} (h : Delivers t ws) (h0 : t 0 = none) : ws = [] := by
  cases ws with
  | nil => rfl
  | cons w ws => cases h0.symm.trans (h 0 (Nat.zero_le _))

structure Walked (v : ArgVector) (c : ℕ) (segs : List (List Word)) (calls : List Call) : Prop where
  stages : List.Forall₂ (fun call st => Delivers call.tempArgs st) calls segs
  once : calls.flatMap (fun call => call.reads.filter (isStageWord v.args)) =
    (List.range' c (v.numArgs - c)).filter (isStageWord v.args)
  reads : ∀ call ∈ calls, ∀ i ∈ call.reads, i ≤ v.numArgs

theorem walked (segs : List (List Word)) : ∀ (c : ℕ) (t : Args), c ≤ v.numArgs →
    (wordsAt v.args c).splitOn bar = segs → (∀ st ∈ segs, st ≠ []) →
    ∃ calls, nextArgs v.args segs.length t c = some calls ∧ Walked v c segs calls := by
  induction segs with
  | nil => exact fun c t _ h _ => absurd h (List.splitOn_ne_nil bar _)
  | cons seg more ih =>
    intro c t hc h hne
    obtain ⟨hseg, hmore⟩ := List.forall_mem_cons.mp hne
    obtain ⟨t', hnext, hwords, hgo⟩ := nextArg_spec t hc h hseg
    obtain ⟨hreads, hle⟩ := nextArgReads_eq hc h
    have hlt := v.lt_size
    have hdelivers : Delivers t' seg := delivers_of_words hwords (by omega)
    have hbound : ∀ i ∈ List.range' c (seg.length + 1), i ≤ v.numArgs := by
      intro i hi
      have := List.mem_range'_1.mp hi
      omega
    cases more with
    | nil =>
      refine ⟨[⟨t', nextArgReads v.args c⟩], by simp [nextArgs, hnext], .cons hdelivers .nil, ?_, ?_⟩
      · have hlast : c + seg.length = v.numArgs := by
          have := Fields.eq_of_splitOn_single h
          rw [← this, ArgVector.length_wordsAt hc]
          omega
        have hlen : v.numArgs - c = seg.length := by omega
        rw [List.flatMap_singleton, hreads, List.range'_1_concat, List.filter_append, hlast,
          List.filter_cons_of_neg (by simp [isStageWord_null]), hlen]
        exact List.append_nil _
      · simpa [hreads] using hbound
    | cons seg' more =>
      obtain ⟨hc', hsplit⟩ := hgo (List.cons_ne_nil _ _)
      obtain ⟨calls, hcalls, hstages, honce, hreads'⟩ := ih _ t' hc' hsplit hmore
      refine ⟨⟨t', nextArgReads v.args c⟩ :: calls, ?_, .cons hdelivers hstages, ?_, ?_⟩
      · simp only [List.length_cons, nextArgs, hnext, Option.bind_some] at hcalls ⊢
        rw [hcalls]
        rfl
      · have hlen : v.numArgs - c = seg.length + 1 + (v.numArgs - (c + seg.length + 1)) := by omega
        have hrange : List.range' c (seg.length + 1) ++
            List.range' (c + seg.length + 1) (v.numArgs - (c + seg.length + 1)) =
            List.range' c (v.numArgs - c) := by
          rw [hlen]
          exact List.range'_append_1
        rw [List.flatMap_cons, honce, hreads, ← List.filter_append, hrange]
      · exact List.forall_mem_cons.mpr ⟨by rwa [hreads], hreads'⟩

theorem stages_of_calls (segs : List (List Word)) : ∀ (c : ℕ) (t : Args) (calls : List Call),
    c ≤ v.numArgs → (wordsAt v.args c).splitOn bar = segs →
    nextArgs v.args segs.length t c = some calls →
    List.Forall₂ (fun call st => Delivers call.tempArgs st) calls segs →
    (∀ st ∈ segs, st ≠ []) ∨ ((∀ st ∈ segs, st = []) ∧ t 0 = none) := by
  induction segs with
  | nil => exact fun _ _ _ _ h => absurd h (List.splitOn_ne_nil bar _)
  | cons seg more ih =>
    intro c t calls hc h hcalls hstages
    by_cases hseg : seg = []
    · subst hseg
      rw [nextArgs_stuck (nextArg_empty hc h)] at hcalls
      obtain rfl := Option.some.inj hcalls
      have hsame := (forall₂_replicate ([] :: more)).mp hstages
      have hnull : t 0 = none := hsame [] List.mem_cons_self 0 (Nat.le_refl 0)
      exact .inr ⟨fun st hst => (hsame st hst).eq_nil hnull, hnull⟩
    · obtain ⟨t', hnext, hwords, hgo⟩ := nextArg_spec t hc h hseg
      cases more with
      | nil => exact .inl (by simpa using hseg)
      | cons seg' more =>
        obtain ⟨hc', hsplit⟩ := hgo (List.cons_ne_nil _ _)
        simp only [List.length_cons, nextArgs, hnext, Option.bind_some] at hcalls
        obtain ⟨rest, hrest, rfl⟩ := Option.map_eq_some_iff.mp hcalls
        obtain ⟨hfirst, hstages⟩ := List.forall₂_cons.mp hstages
        rcases ih _ t' rest hc' hsplit hrest hstages with hall | ⟨-, hnull⟩
        · exact .inl (List.forall_mem_cons.mpr ⟨hseg, hall⟩)
        · exact absurd (hfirst.eq_nil hnull) hseg

theorem not_isStageWord (hempty : ∀ st ∈ v.stages, st = []) {i : ℕ} (hi : i ≤ v.numArgs) :
    isStageWord v.args i = false := by
  have hlt := v.lt_size
  have hlen := v.length_words
  have hentry := entry_of_wordsAt v.words 0 rfl (by omega) i (by omega)
  rw [Nat.zero_add] at hentry
  rw [isStageWord, hentry]
  cases hw : v.words[i]? with
  | none => rfl
  | some w =>
    have hbar := Fields.all_of_splitOnP_nil hempty w (List.mem_of_getElem? hw)
    simpa using hbar

theorem splits_empty (hempty : ∀ st ∈ v.stages, st = []) (hnull : t 0 = none) :
    SplitsPipeline v t := by
  have hlen := v.length_stages
  have hstages : v.stages = [] :: v.stages.tail := by
    cases hst : v.stages with
    | nil => simp [hst] at hlen
    | cons st rest => simp [hempty st (hst ▸ List.mem_cons_self)]
  obtain ⟨hreads, -⟩ := nextArgReads_eq (Nat.zero_le _) hstages
  have hnone (l : List ℕ) (hl : ∀ i ∈ l, i ≤ v.numArgs) : l.filter (isStageWord v.args) = [] :=
    List.filter_eq_nil_iff.mpr fun i hi => by simp [not_isStageWord hempty (hl i hi)]
  have hzero : ∀ i ∈ nextArgReads v.args 0, i ≤ v.numArgs := by simp [hreads]
  refine ⟨_, nextArgs_stuck (nextArg_empty (Nat.zero_le _) hstages) _, ?_, ?_, ?_⟩
  · rw [← hlen]
    exact (forall₂_replicate _).mpr fun st hst => hempty st hst ▸ delivers_nil hnull
  · rw [hnone _ fun i hi => Nat.le_of_lt (List.mem_range.mp hi)]
    refine List.flatMap_eq_nil_iff.mpr fun call hcall => ?_
    rw [List.eq_of_mem_replicate hcall]
    exact hnone _ hzero
  · intro call hcall
    rw [List.eq_of_mem_replicate hcall]
    exact hzero

theorem splits_pipeline_iff (v : ArgVector) (t : Args) :
    SplitsPipeline v t ↔
      (∀ st ∈ v.stages, st ≠ []) ∨ ((∀ st ∈ v.stages, st = []) ∧ t 0 = none) := by
  have hlen := v.length_stages
  constructor
  · rintro ⟨calls, hcalls, hsplits⟩
    rw [← hlen] at hcalls
    exact stages_of_calls v.stages 0 t calls (Nat.zero_le _) rfl hcalls hsplits.stages
  · rintro (hne | ⟨hempty, hnull⟩)
    · obtain ⟨calls, hcalls, hwalked⟩ := walked v.stages 0 t (Nat.zero_le _) rfl hne
      rw [hlen] at hcalls
      refine ⟨calls, hcalls, hwalked.stages, ?_, hwalked.reads⟩
      rw [hwalked.once, List.range_eq_range', Nat.sub_zero]
    · exact splits_empty hempty hnull

end Walk

section Samples

def gapVector : ArgVector := .ofWords [['l', 's'], bar, bar, ['w', 'c']] (by decide)

theorem stage_delivered_twice : ¬ SplitsPipeline gapVector (fun _ => none) := by
  rintro ⟨calls, hcalls, hsplits⟩
  have hstages := stages_of_calls gapVector.stages 0 _ calls (Nat.zero_le _) rfl
    (gapVector.length_stages ▸ hcalls) hsplits.stages
  rcases hstages with hne | ⟨hempty, -⟩
  · exact hne [] (by decide) rfl
  · exact absurd (hempty [['l', 's']] (by decide)) (List.cons_ne_nil _ _)

end Samples
end Shell
