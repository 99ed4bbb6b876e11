import Mathlib.Order.WellFounded
import Mathlib.Tactic.Common

structure Machine (S L : Type) where
  init : S → Prop
  step : S → L → S → Prop

namespace Machine
variable {S L : Type} (M : Machine S L)

def ofFn (init : S → Prop) (f : S → L → Option S) : Machine S L where
  init := init
  step s l t := f s l = some t

inductive Reachable : S → Prop
  | init {s : S} : M.init s → Reachable s
  | step {s : S} {l : L} {t : S} : Reachable s → M.step s l t → Reachable t

def started (s0 : S) : Machine S L where
  init s := s = s0
  step := M.step

def Enabled (s : S) (l : L) : Prop := ∃ t, M.step s l t

def Stuck (s : S) : Prop := ∀ l, ¬ M.Enabled s l

variable {M}

theorem Reachable.invariant {I : S → Prop} {s : S} (hs : M.Reachable s)
    (h0 : ∀ s, M.init s → I s)
    (hstep : ∀ s l t, M.Reachable s → I s → M.step s l t → I t) : I s := by
  induction hs with
  | init h => exact h0 _ h
  | step hr h ih => exact hstep _ _ _ hr ih h

theorem Reachable.stuck_exists {s : S} (hs : M.Reachable s) (μ : S → ℕ)
    (hμ : ∀ s l t, M.Reachable s → M.step s l t → μ t < μ s) :
    ∃ t, M.Reachable t ∧ M.Stuck t := by
  induction hn : μ s using Nat.strong_induction_on generalizing s with
  | _ n ih =>
    by_cases hst : M.Stuck s
    · exact ⟨s, hs, hst⟩
    · simp only [Stuck, Enabled, not_forall, not_not] at hst
      obtain ⟨l, t, ht⟩ := hst
      have hlt : μ t < n := hn ▸ hμ s l t hs ht
      exact ih (μ t) hlt (hs.step ht) rfl

theorem Reachable.of_started {s t : S} (hs : M.Reachable s) (ht : (M.started s).Reachable t) :
    M.Reachable t := by
  induction ht with
  | init h => exact h ▸ hs
  | step _ h ih => exact ih.step h

theorem Reachable.exists_started {s : S} (hs : M.Reachable s) :
    ∃ s0, M.init s0 ∧ (M.started s0).Reachable s := by
  induction hs with
  | init h => exact ⟨_, h, .init rfl⟩
  | step _ h ih =>
    obtain ⟨s0, h0, hs⟩ := ih
    exact ⟨s0, h0, hs.step h⟩

theorem Reachable.simulate {T : Type} {N : Machine T L} {R : S → T → Prop}
    (hinit : ∀ s, M.init s → ∃ t, N.init t ∧ R s t)
    (hstep : ∀ s l s' t, R s t → M.step s l s' → ∃ t', N.step t l t' ∧ R s' t') {s : S}
    (hs : M.Reachable s) : ∃ t, N.Reachable t ∧ R s t := by
  induction hs with
  | init h =>
    obtain ⟨t, ht, hR⟩ := hinit _ h
    exact ⟨t, .init ht, hR⟩
  | step _ hst ih =>
    obtain ⟨t, ht, hR⟩ := ih
    obtain ⟨t', hst', hR'⟩ := hstep _ _ _ t hR hst
    exact ⟨t', ht.step hst', hR'⟩

theorem Reachable.follow {ι : Type} {r : ι → ι → Prop} (hwf : WellFounded r) {G : ι → S → Prop}
    {D : S → Prop} (hstep : ∀ i s, M.Reachable s → G i s → ¬ D s →
      ∃ l t j, M.step s l t ∧ G j t ∧ r j i)
    {i : ι} {s : S} (hs : M.Reachable s) (hG : G i s) :
    ∃ j t, M.Reachable t ∧ G j t ∧ D t := by
  induction i using hwf.induction generalizing s with
  | _ i ih =>
    by_cases hD : D s
    · exact ⟨i, s, hs, hG, hD⟩
    · obtain ⟨l, t, j, ht, hGt, hlt⟩ := hstep i s hs hG hD
      exact ih j hlt (hs.step ht) hGt

theorem reachable_of_foldlM {init : S → Prop} {f : S → L → Option S} {s t : S} {ls : List L}
    (hs : (ofFn init f).Reachable s) (h : ls.foldlM f s = some t) :
    (ofFn init f).Reachable t := by
  induction ls generalizing s with
  | nil => simp only [List.foldlM_nil] at h; cases h; exact hs
  | cons l ls ih =>
    simp only [List.foldlM_cons] at h
    obtain ⟨u, hu, h⟩ := Option.bind_eq_some_iff.mp h
    exact ih (hs.step hu) h

theorem exists_of_foldlM {init : S → Prop} {f : S → L → Option S} {s : S} (ls : List L)
    (p : S → Bool) (hs : (ofFn init f).Reachable s) (h : (ls.foldlM f s).any p = true) :
    ∃ t, (ofFn init f).Reachable t ∧ p t = true := by
  obtain ⟨t, ht, hp⟩ := Option.any_eq_true _ _ |>.mp h
  exact ⟨t, reachable_of_foldlM hs ht, hp⟩

variable (M)

inductive Run : S → List (L × S) → Prop
  | nil (s : S) : Run s []
  | cons {s : S} {l : L} {t : S} {tr : List (L × S)} :
      M.step s l t → Run t tr → Run s ((l, t) :: tr)

def moves : S → List (L × S) → List (S × L × S)
  | _, [] => []
  | s, (l, t) :: tr => (s, l, t) :: moves t tr

variable {M}

theorem Run.reachable {s : S} {tr : List (L × S)} (h : M.Run s tr) (hs : M.Reachable s) :
    ∀ p ∈ tr, M.Reachable p.2 := by
  induction h with
  | nil => simp
  | cons hst _ ih =>
    intro p hp
    rcases List.mem_cons.mp hp with rfl | hp
    · exact hs.step hst
    · exact ih (hs.step hst) p hp

theorem Run.countP_le {P : S → Prop} {b : S × L × S → Bool} {μ : S → ℕ} {s : S}
    {tr : List (L × S)} (hrun : M.Run s tr) (hs : M.Reachable s) (hP : P s)
    (hstep : ∀ s l t, M.Reachable s → P s → M.step s l t →
      P t ∧ μ t + (if b (s, l, t) then 1 else 0) ≤ μ s) :
    (moves s tr).countP b ≤ μ s := by
  induction hrun with
  | nil => exact Nat.zero_le _
  | @cons s l t tr hst _ ih =>
    obtain ⟨hPt, hle⟩ := hstep s l t hs hP hst
    have hrest := ih (hs.step hst) hPt
    rw [moves, List.countP_cons]
    omega

theorem length_moves (s : S) (tr : List (L × S)) : (moves s tr).length = tr.length := by
  induction tr generalizing s with
  | nil => rfl
  | cons p tr ih => exact congrArg Nat.succ (ih p.2)

theorem Run.length_le {μ : S → ℕ} {s : S} {tr : List (L × S)} (hrun : M.Run s tr)
    (hs : M.Reachable s) (hμ : ∀ s l t, M.Reachable s → M.step s l t → μ t < μ s) :
    tr.length ≤ μ s := by
  have hle := hrun.countP_le (P := fun _ => True) (b := fun _ => true) hs trivial
    fun s l t hs _ hst => ⟨trivial, Nat.succ_le_of_lt (hμ s l t hs hst)⟩
  rwa [List.countP_true, length_moves] at hle

theorem Run.holds_iff {P : S → Prop} {ok : S → L → Prop} {s : S} {tr : List (L × S)}
    (hrun : M.Run s tr) (hs : M.Reachable s) (hP : P s)
    (hiff : ∀ s l t, M.Reachable s → P s → M.step s l t → (P t ↔ ok s l)) :
    (∀ p ∈ tr, P p.2) ↔ ∀ m ∈ moves s tr, ok m.1 m.2.1 := by
  induction hrun with
  | nil => simp [moves]
  | @cons s l t tr hst _ ih =>
    have ht := hiff s l t hs hP hst
    simp only [List.mem_cons, forall_eq_or_imp, moves]
    constructor
    · rintro ⟨hp, hrest⟩
      exact ⟨ht.mp hp, (ih (hs.step hst) hp).mp hrest⟩
    · rintro ⟨hok, hrest⟩
      exact ⟨ht.mpr hok, (ih (hs.step hst) (ht.mpr hok)).mpr hrest⟩

section Traces
variable {A : Type}

def last : S → List (L × S) → S
  | s, [] => s
  | _, (_, t) :: tr => last t tr

def trace (act : S → L → Option A) : S → List (L × S) → List A
  | _, [] => []
  | s, (l, t) :: tr => (act s l).toList ++ trace act t tr

theorem Run.append {s : S} {tr tr' : List (L × S)} (h : M.Run s tr) (h' : M.Run (last s tr) tr') :
    M.Run s (tr ++ tr') := by
  induction h with
  | nil => exact h'
  | cons hst _ ih => exact .cons hst (ih h')

theorem last_append (s : S) (tr tr' : List (L × S)) :
    last s (tr ++ tr') = last (last s tr) tr' := by
  induction tr generalizing s with
  | nil => rfl
  | cons p tr ih => exact ih p.2

theorem exists_run {s t : S} (h : (M.started s).Reachable t) : ∃ tr, M.Run s tr ∧ last s tr = t := by
  induction h with
  | init h => exact ⟨[], .nil _, h.symm⟩
  | @step u l t _ hst ih =>
    obtain ⟨tr, hrun, rfl⟩ := ih
    refine ⟨tr ++ [(l, t)], hrun.append (.cons hst (.nil _)), ?_⟩
    rw [last_append]
    rfl

theorem Run.trace_prefix {act : S → L → Option A} {owed : S → List A → Prop} {C : L → Prop}
    (hstep : ∀ s l t as, M.step s l t → owed s as →
      ∃ rest, owed t rest ∧ as = (act s l).toList ++ rest ∧ (C l → rest = []))
    {s : S} {tr : List (L × S)} {as : List A} (hrun : M.Run s tr) (h : owed s as) :
    trace act s tr <+: as ∧ ((∃ p ∈ tr, C p.1) → trace act s tr = as) := by
  induction hrun generalizing as with
  | nil => exact ⟨List.nil_prefix, fun ⟨_, hp, _⟩ => absurd hp List.not_mem_nil⟩
  | @cons s l t tr hst _ ih =>
    obtain ⟨rest, howed, rfl, hclose⟩ := hstep s l t as hst h
    obtain ⟨hpre, hall⟩ := ih howed
    refine ⟨(List.prefix_append_right_inj _).mpr hpre, fun ⟨p, hp, hcl⟩ => ?_⟩
    rw [trace, List.append_cancel_left_eq]
    rcases List.mem_cons.mp hp with rfl | hp
    · have hnil := hclose hcl
      rw [hnil] at hpre ⊢
      exact List.prefix_nil.mp hpre
    · exact hall ⟨p, hp, hcl⟩

theorem Run.past {act : S → L → Option A} {P : S → List A → Prop}
    (hstep : ∀ s l t as, P s as → M.step s l t → P t ((act s l).toList ++ as)) {s : S}
    {tr : List (L × S)} {as : List A} (hrun : M.Run s tr) (h : P s as) :
    P (last s tr) ((trace act s tr).reverse ++ as) := by
  induction hrun generalizing as with
  | nil => exact h
  | @cons s l t tr hst _ ih =>
    have hnext := ih (hstep s l t as h hst)
    rw [trace, List.reverse_append, List.append_assoc]
    cases hact : act s l with
    | none => simpa [hact, last] using hnext
    | some a => simpa [hact, last] using hnext

theorem Run.countP_eq {P : S → Prop} {b : S × L × S → Bool} {μ : S → ℕ} {s : S}
    {tr : List (L × S)} (hrun : M.Run s tr) (hP : P s)
    (hstep : ∀ s l t, P s → M.step s l t → P t ∧ μ t = μ s + if b (s, l, t) then 1 else 0) :
    μ (last s tr) = μ s + (moves s tr).countP b := by
  induction hrun with
  | nil => rfl
  | @cons s l t tr hst _ ih =>
    obtain ⟨hPt, heq⟩ := hstep s l t hP hst
    have hrest := ih hPt
    rw [moves, List.countP_cons, last]
    omega

end Traces

section Ledger
variable {X : Type} {table : S → List X} {gains losses : S × L × S → List X} {old : S → X → Prop}

structure Ledger (M : Machine S L) (table : S → List X) (gains losses : S × L × S → List X)
    (old : S → X → Prop) : Prop where
  mem_iff : ∀ {s l t}, M.step s l t → ∀ x,
    x ∈ table t ↔ (x ∈ table s ∨ x ∈ gains (s, l, t)) ∧ x ∉ losses (s, l, t)
  keeps : ∀ {s l t}, M.step s l t → ∀ x, old s x → old t x
  gained : ∀ {s l t}, M.step s l t → ∀ x ∈ gains (s, l, t), ¬ old s x
  lost : ∀ {s l t}, M.step s l t → ∀ x ∈ losses (s, l, t), old t x

theorem Ledger.gains_new (h : Ledger M table gains losses old) {s : S} {tr : List (L × S)}
    (hrun : M.Run s tr) : ∀ x ∈ (moves s tr).flatMap gains, ¬ old s x := by
  induction hrun with
  | nil => simp [moves]
  | cons hst _ ih =>
    intro x hx
    rcases List.mem_append.mp hx with hx | hx
    · exact h.gained hst x hx
    · exact fun hold => ih x hx (h.keeps hst x hold)

theorem Ledger.run_iff (h : Ledger M table gains losses old) {s : S} {tr : List (L × S)}
    (hrun : M.Run s tr) (x : X) :
    x ∈ table (last s tr) ↔ (x ∈ table s ∨ x ∈ (moves s tr).flatMap gains) ∧
      x ∉ (moves s tr).flatMap losses := by
  induction hrun with
  | nil => simp [moves, last]
  | @cons s l t tr hst hrest ih =>
    have hnew : x ∈ (moves t tr).flatMap gains → x ∉ losses (s, l, t) := fun hx hlost =>
      h.gains_new hrest x hx (h.lost hst x hlost)
    rw [last, ih, h.mem_iff hst, moves, List.flatMap_cons, List.flatMap_cons, List.mem_append,
      List.mem_append]
    tauto

theorem Run.countP_add_le {b : S × L × S → Bool} {μ : S → ℕ} {g : S × L × S → List X} {s : S}
    {tr : List (L × S)} (hrun : M.Run s tr) (hstep : ∀ s l t, M.step s l t →
      μ t + (if b (s, l, t) then 1 else 0) ≤ μ s + (g (s, l, t)).length) :
    (moves s tr).countP b + μ (last s tr) ≤ μ s + ((moves s tr).flatMap g).length := by
  induction hrun with
  | nil => simp [moves, last]
  | @cons s l t tr hst _ ih =>
    have hle := hstep s l t hst
    rw [moves, List.countP_cons, last, List.flatMap_cons, List.length_append]
    omega

end Ledger

end Machine
