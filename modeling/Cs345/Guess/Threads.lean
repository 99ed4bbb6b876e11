import Cs345.Guess.Model
import Cs345.Tickets
import Mathlib.Order.Interval.Finset.Nat

namespace Guess

section Processes

structure Args extends Session where
  i : ℕ

inductive Side where
  | server
  | client

namespace Args
variable (tid : Args)

def range : Finset ℕ := Finset.Ico (tid.low tid.i) (tid.high tid.i)

def semaphores : Finset ℕ := {tid.i, tid.i + tid.M}

end Args

inductive ThreadPc where
  | unborn
  | fresh
  | locked
  | copied (tid : Args)
  | holding (tid : Args)
  | drawn (tid : Args) (n : ℕ)
  | counted (tid : Args)
  | running (tid : Args)
  | exited (tid : Args)

namespace ThreadPc

def args : ThreadPc → Option Args
  | .copied tid => some tid
  | .holding tid => some tid
  | .drawn tid _ => some tid
  | .counted tid => some tid
  | .running tid => some tid
  | .exited tid => some tid
  | _ => none

def taken : ThreadPc → Option Args
  | .counted tid => some tid
  | .running tid => some tid
  | .exited tid => some tid
  | _ => none

def id (pc : ThreadPc) : Option ℕ := pc.taken.map (·.i)

def holds : ThreadPc → Bool
  | .locked => true
  | .holding _ => true
  | .drawn _ _ => true
  | .counted _ => true
  | _ => false

theorem args_of_taken {pc : ThreadPc} {tid : Args} (h : pc.taken = some tid) :
    pc.args = some tid := by
  cases pc <;> first | exact h | cases h

end ThreadPc

structure Process where
  temp : Args
  threadNo : ℕ
  mutex : Option ℕ
  created : ℕ
  joined : ℕ
  thread : ℕ → ThreadPc

namespace Process
variable (p : Process)

def go (i : ℕ) (pc : ThreadPc) : Process := { p with thread := Function.update p.thread i pc }

def opened (P : Session) : Process :=
  { p with
    temp := ⟨P, p.threadNo⟩
    mutex := none
    created := 0
    joined := 0
    thread := fun _ => .unborn }

end Process

inductive ProcStep (side : Side) (p : Process) : Process → Prop
  | create : p.created < p.temp.M →
      ProcStep side p { p.go p.created .fresh with created := p.created + 1 }
  | serverLock {i : ℕ} : side = .server → p.thread i = .fresh → p.mutex = none →
      ProcStep side p { p.go i .locked with mutex := some i }
  | serverCopy {i : ℕ} : side = .server → p.thread i = .locked →
      ProcStep side p (p.go i (.holding p.temp))
  -- the client's threads copy the arguments before they take the mutex
  | clientCopy {i : ℕ} : side = .client → p.thread i = .fresh →
      ProcStep side p (p.go i (.copied p.temp))
  | clientLock {i : ℕ} {tid : Args} : side = .client → p.thread i = .copied tid →
      p.mutex = none → ProcStep side p { p.go i (.holding tid) with mutex := some i }
  | draw {i : ℕ} {tid : Args} : p.thread i = .holding tid →
      ProcStep side p (p.go i (.drawn tid p.threadNo))
  | count {i n : ℕ} {tid : Args} : p.thread i = .drawn tid n →
      ProcStep side p { p.go i (.counted { tid with i := n }) with threadNo := n + 1 }
  | unlock {i : ℕ} {tid : Args} : p.thread i = .counted tid →
      ProcStep side p { p.go i (.running tid) with mutex := none }
  | join {tid : Args} : p.created = p.temp.M → p.joined < p.temp.M →
      p.thread p.joined = .exited tid → ProcStep side p { p with joined := p.joined + 1 }

end Processes

section Numbering
variable {P : Session} {p p' : Process} {side : Side} {i j : ℕ} {pc : ThreadPc} {tid tid' : Args}

structure Numbered (P : Session) (p : Process) : Prop where
  temp : p.temp.toSession = P
  created_le : p.created ≤ P.M
  unborn : ∀ i, p.created ≤ i → p.thread i = .unborn
  args : ∀ i tid, (p.thread i).args = some tid → tid.toSession = P
  mutex : ∀ i, (p.thread i).holds = true → p.mutex = some i
  drawn : ∀ i tid n, p.thread i = .drawn tid n → n = p.threadNo
  ids : Tickets.Drawn (ThreadPc.id ∘ p.thread) p.threadNo
  joined : ∀ i < p.joined, ∃ tid, p.thread i = .exited tid

theorem numbered_opened (P : Session) (h : p.threadNo = 0) : Numbered P (p.opened P) where
  temp := rfl
  created_le := Nat.zero_le _
  unborn _ _ := rfl
  args := nofun
  mutex := nofun
  drawn := nofun
  ids := by
    have := Tickets.drawn_none (ι := ℕ)
    rwa [← h] at this
  joined i hi := absurd hi (Nat.not_lt_zero i)

theorem Numbered.born (h : Numbered P p) (hi : p.thread i ≠ .unborn) : i < p.created := by
  by_contra hle
  exact hi (h.unborn i (Nat.le_of_not_lt hle))

theorem Numbered.ne_of_le (h : Numbered P p) (hi : p.thread i ≠ .unborn) (hj : p.created ≤ j) :
    j ≠ i := by
  rintro rfl
  exact Nat.not_lt_of_le hj (h.born hi)

theorem Numbered.holder (h : Numbered P p) (hi : (p.thread i).holds = true)
    (hj : (p.thread j).holds = true) : i = j :=
  Option.some.inj ((h.mutex i hi).symm.trans (h.mutex j hj))

section Mutex
variable (h : Numbered P p)
include h

theorem Numbered.mutex_lock (hfree : p.mutex = none) (i : ℕ) (pc : ThreadPc) (j : ℕ)
    (hj : (Function.update p.thread i pc j).holds = true) : some i = some j := by
  by_cases hji : j = i
  · rw [hji]
  · rw [Function.update_of_ne hji] at hj
    rw [h.mutex j hj] at hfree
    cases hfree

theorem Numbered.mutex_keep (hkeep : pc.holds = true → (p.thread i).holds = true) (j : ℕ)
    (hj : (Function.update p.thread i pc j).holds = true) : p.mutex = some j := by
  by_cases hji : j = i
  · subst hji
    rw [Function.update_self] at hj
    exact h.mutex j (hkeep hj)
  · rw [Function.update_of_ne hji] at hj
    exact h.mutex j hj

theorem Numbered.mutex_unlock (hi : (p.thread i).holds = true) (hpc : pc.holds = false) (j : ℕ)
    (hj : (Function.update p.thread i pc j).holds = true) : none = some j := by
  by_cases hji : j = i
  · subst hji
    rw [Function.update_self, hpc] at hj
    cases hj
  · rw [Function.update_of_ne hji] at hj
    exact absurd (h.holder hj hi) hji

end Mutex

theorem Numbered.go (h : Numbered P p) {mutex : Option ℕ} (hborn : p.thread i ≠ .unborn)
    (hlive : ∀ tid, p.thread i ≠ .exited tid)
    (hargs : ∀ tid, pc.args = some tid → tid.toSession = P)
    (hmutex : ∀ j, (Function.update p.thread i pc j).holds = true → mutex = some j)
    (hdrawn : ∀ tid n, pc = .drawn tid n → n = p.threadNo) (hid : pc.id = (p.thread i).id) :
    Numbered P { p.go i pc with mutex := mutex } where
  temp := h.temp
  created_le := h.created_le
  unborn j hj := by
    have hji := h.ne_of_le hborn hj
    exact (Function.update_of_ne hji _ _).trans (h.unborn j hj)
  args j tid hj := by
    by_cases hji : j = i
    · subst hji
      exact hargs tid (by simpa [Process.go] using hj)
    · exact h.args j tid (by simpa [Process.go, hji] using hj)
  mutex := hmutex
  drawn j tid n hj := by
    by_cases hji : j = i
    · subst hji
      exact hdrawn tid n (by simpa [Process.go] using hj)
    · exact h.drawn j tid n (by simpa [Process.go, hji] using hj)
  ids := by
    have := h.ids.keep (i := i) (o := pc.id) hid
    rwa [← Function.comp_update] at this
  joined j hj := by
    obtain ⟨tid, htid⟩ := h.joined j hj
    have hji : j ≠ i := fun heq => hlive tid (heq ▸ htid)
    exact ⟨tid, (Function.update_of_ne hji _ _).trans htid⟩

theorem Numbered.count (h : Numbered P p) {n : ℕ} (hi : p.thread i = .drawn tid n) :
    Numbered P { p.go i (.counted { tid with i := n }) with threadNo := n + 1 } := by
  have hn : n = p.threadNo := h.drawn i tid n hi
  have hholds : (p.thread i).holds = true := by rw [hi]; rfl
  have hkeep : ∀ j, (Function.update p.thread i (.counted { tid with i := n }) j).holds = true →
      p.mutex = some j := h.mutex_keep fun _ => hholds
  refine ⟨h.temp, h.created_le, fun j hj => ?_, fun j t hj => ?_, hkeep, fun j t m hj => ?_, ?_,
    fun j hj => ?_⟩
  · have hji : j ≠ i := h.ne_of_le (by simp [hi]) hj
    exact (Function.update_of_ne hji _ _).trans (h.unborn j hj)
  · by_cases hji : j = i
    · subst hji
      simp only [Process.go, Function.update_self, ThreadPc.args, Option.some.injEq] at hj
      rw [← hj]
      exact h.args j tid (by rw [hi]; rfl)
    · exact h.args j t (by simpa [Process.go, hji] using hj)
  · have hji : j ≠ i := by
      rintro rfl
      simp [Process.go] at hj
    simp only [Process.go, Function.update_of_ne hji] at hj
    exact absurd (h.holder (by rw [hj]; rfl) hholds) hji
  · have hdraw := h.ids.draw (i := i) (by simp [hi, ThreadPc.id, ThreadPc.taken])
    rw [← hn] at hdraw
    have hid : ThreadPc.id (.counted { tid with i := n }) = some n := rfl
    rwa [← hid, ← Function.comp_update] at hdraw
  · obtain ⟨t, ht⟩ := h.joined j hj
    have hji : j ≠ i := fun heq => by simp [heq, hi] at ht
    exact ⟨t, (Function.update_of_ne hji _ _).trans ht⟩

theorem Numbered.create (h : Numbered P p) (hlt : p.created < p.temp.M) :
    Numbered P { p.go p.created .fresh with created := p.created + 1 } := by
  have hnew : p.thread p.created = .unborn := h.unborn _ (Nat.le_refl _)
  have hle : p.created + 1 ≤ P.M := by rw [← h.temp]; exact hlt
  refine ⟨h.temp, hle, fun j hj => ?_, fun j t hj => ?_, ?_, fun j t m hj => ?_, ?_,
    fun j hj => ?_⟩
  · have hji : j ≠ p.created := Nat.ne_of_gt hj
    exact (Function.update_of_ne hji _ _).trans (h.unborn j (Nat.le_of_succ_le hj))
  · by_cases hji : j = p.created
    · simp [Process.go, hji, ThreadPc.args] at hj
    · exact h.args j t (by simpa [Process.go, hji] using hj)
  · exact h.mutex_keep (by simp [ThreadPc.holds])
  · by_cases hji : j = p.created
    · simp [Process.go, hji] at hj
    · exact h.drawn j t m (by simpa [Process.go, hji] using hj)
  · have hkeep := h.ids.keep (i := p.created) (o := ThreadPc.id .fresh) (by
      simp [hnew, ThreadPc.id, ThreadPc.taken])
    rwa [← Function.comp_update] at hkeep
  · obtain ⟨t, ht⟩ := h.joined j hj
    have hji : j ≠ p.created := fun heq => by simp [heq, hnew] at ht
    exact ⟨t, (Function.update_of_ne hji _ _).trans ht⟩

theorem numbered_step (h : Numbered P p) (hstep : ProcStep side p p') : Numbered P p' := by
  cases hstep with
  | create hlt => exact h.create hlt
  | @serverLock i _ hi hfree =>
    exact h.go (by simp [hi]) (by simp [hi]) nofun (h.mutex_lock hfree i .locked) nofun
      (by simp [hi, ThreadPc.id, ThreadPc.taken])
  | @serverCopy i _ hi =>
    refine h.go (by simp [hi]) (by simp [hi]) (fun tid htid => ?_) ?_ nofun
      (by simp [hi, ThreadPc.id, ThreadPc.taken])
    · rw [← Option.some.inj htid]
      exact h.temp
    · exact h.mutex_keep (by simp [hi, ThreadPc.holds])
  | @clientCopy i _ hi =>
    refine h.go (by simp [hi]) (by simp [hi]) (fun tid htid => ?_) ?_ nofun
      (by simp [hi, ThreadPc.id, ThreadPc.taken])
    · rw [← Option.some.inj htid]
      exact h.temp
    · exact h.mutex_keep (by simp [ThreadPc.holds])
  | @clientLock i tid _ hi hfree =>
    refine h.go (by simp [hi]) (by simp [hi]) (fun t ht => ?_)
      (h.mutex_lock hfree i (.holding tid)) nofun (by simp [hi, ThreadPc.id, ThreadPc.taken])
    rw [← Option.some.inj ht]
    exact h.args i tid (by rw [hi]; rfl)
  | @draw i tid hi =>
    refine h.go (by simp [hi]) (by simp [hi]) (fun t ht => ?_) ?_ (fun t n heq => ?_)
      (by simp [hi, ThreadPc.id, ThreadPc.taken])
    · rw [← Option.some.inj ht]
      exact h.args i tid (by rw [hi]; rfl)
    · exact h.mutex_keep (by simp [hi, ThreadPc.holds])
    · cases heq
      rfl
  | count hi => exact h.count hi
  | @unlock i tid hi =>
    refine h.go (by simp [hi]) (by simp [hi]) (fun t ht => ?_) ?_ nofun
      (by simp [hi, ThreadPc.id, ThreadPc.taken])
    · rw [← Option.some.inj ht]
      exact h.args i tid (by rw [hi]; rfl)
    · exact h.mutex_unlock (by simp [hi, ThreadPc.holds]) rfl
  | @join tid _ _ hexit =>
    refine ⟨h.temp, h.created_le, h.unborn, h.args, h.mutex, h.drawn, h.ids, fun j hj => ?_⟩
    rcases Nat.lt_succ_iff_lt_or_eq.mp hj with hlt | rfl
    · exact h.joined j hlt
    · exact ⟨tid, hexit⟩

theorem Numbered.exit (h : Numbered P p) (hi : p.thread i = .running tid) :
    Numbered P (p.go i (.exited tid)) := by
  refine h.go (by simp [hi]) (by simp [hi]) (fun t ht => ?_) ?_ nofun
    (by simp [hi, ThreadPc.id, ThreadPc.taken])
  · rw [← Option.some.inj ht]
    exact h.args i tid (by rw [hi]; rfl)
  · exact h.mutex_keep (by simp [ThreadPc.holds])

end Numbering

section Ids
variable {P : Session} {p : Process} {thread : ℕ → ThreadPc} {i j : ℕ} {tid tid' : Args}

structure Ids (P : Session) (thread : ℕ → ThreadPc) : Prop where
  session : ∀ i tid, (thread i).taken = some tid → tid.toSession = P
  lt : ∀ i tid, (thread i).taken = some tid → i < P.M ∧ tid.i < P.M
  distinct : ∀ i j tid tid', (thread i).taken = some tid → (thread j).taken = some tid' →
    tid.i = tid'.i → i = j

structure AllIds (P : Session) (thread : ℕ → ThreadPc) : Prop extends Ids P thread where
  every : ∀ i < P.M, ∃ tid, (thread i).taken = some tid
  all : ∀ n < P.M, ∃ i tid, (thread i).taken = some tid ∧ tid.i = n

section Shares
variable (h : tid.toSession = tid'.toSession)
include h

theorem shares_same (hi : tid.i = tid'.i) :
    tid.range = tid'.range ∧ tid.semaphores = tid'.semaphores := by
  simp only [Args.range, Args.semaphores, h, hi, and_self]

theorem shares_other (hlt : tid.i < tid.M) (hlt' : tid'.i < tid.M) (hi : tid.i ≠ tid'.i) :
    Disjoint tid.range tid'.range ∧ Disjoint tid.semaphores tid'.semaphores := by
  constructor
  · refine Finset.disjoint_left.mpr fun k hk hk' => ?_
    rw [Args.range, Finset.mem_Ico] at hk hk'
    rw [← h] at hk'
    exact tid.ranges_disjoint hi hk hk' rfl
  · refine Finset.disjoint_left.mpr fun j hj hj' => ?_
    simp only [Args.semaphores, Finset.mem_insert, Finset.mem_singleton, ← h] at hj hj'
    omega

end Shares

theorem range_subset (h : tid.i < tid.M) : tid.range ⊆ Finset.range tid.N := by
  intro k hk
  exact Finset.mem_range.mpr (Nat.lt_of_lt_of_le (Finset.mem_Ico.mp hk).2 (tid.high_le h))

theorem semaphores_subset (h : tid.i < tid.M) : tid.semaphores ⊆ Finset.range (2 * tid.M) := by
  intro j hj
  simp only [Args.semaphores, Finset.mem_insert, Finset.mem_singleton] at hj
  rw [Finset.mem_range]
  omega

theorem id_of_taken (h : (thread i).taken = some tid) : (ThreadPc.id ∘ thread) i = some tid.i := by
  simp [ThreadPc.id, h]

theorem taken_of_id {n : ℕ} (h : (ThreadPc.id ∘ thread) i = some n) :
    ∃ tid, (thread i).taken = some tid ∧ tid.i = n :=
  Option.map_eq_some_iff.mp h

theorem Numbered.taken_lt (h : Numbered P p) (hi : (p.thread i).taken = some tid) :
    i < P.M := by
  refine Nat.lt_of_lt_of_le (h.born fun hun => ?_) h.created_le
  rw [hun] at hi
  cases hi

theorem Numbered.toIds (h : Numbered P p) : Ids P p.thread := by
  refine ⟨fun i tid hi => h.args i tid (ThreadPc.args_of_taken hi), fun i tid hi => ?_,
    fun i j tid tid' hi hj heq => ?_⟩
  · have hle : p.threadNo ≤ (Finset.range P.M).card := h.ids.le_card fun j m hj => by
      obtain ⟨t, ht, -⟩ := taken_of_id hj
      exact Finset.mem_range.mpr (h.taken_lt ht)
    rw [Finset.card_range] at hle
    exact ⟨h.taken_lt hi, Nat.lt_of_lt_of_le (h.ids.lt i _ (id_of_taken hi)) hle⟩
  · exact h.ids.distinct i j _ (id_of_taken hi) (heq ▸ id_of_taken hj)

theorem Numbered.toAllIds (h : Numbered P p) (hjoin : p.joined = p.temp.M) :
    AllIds P p.thread := by
  have hevery (i : ℕ) (hi : i < P.M) : ∃ tid, (p.thread i).taken = some tid := by
    obtain ⟨tid, htid⟩ := h.joined i (by rwa [hjoin, h.temp])
    exact ⟨tid, by rw [htid]; rfl⟩
  have hcard : p.threadNo = (Finset.range P.M).card := h.ids.eq_card fun i => by
    rw [Finset.mem_range]
    constructor
    · intro hi
      obtain ⟨tid, htid⟩ := hevery i hi
      exact ⟨_, id_of_taken htid⟩
    · rintro ⟨m, hm⟩
      obtain ⟨tid, htid, -⟩ := taken_of_id hm
      exact h.taken_lt htid
  rw [Finset.card_range] at hcard
  refine ⟨h.toIds, hevery, fun n hn => ?_⟩
  obtain ⟨i, hi⟩ := h.ids.all n (hcard ▸ hn)
  obtain ⟨tid, htid, rfl⟩ := taken_of_id hi
  exact ⟨i, tid, htid, rfl⟩

end Ids

section Own
variable {tid : Args} {s t : State} {sem sem' : ℕ → ℕ}

def Owned (A : Finset ℕ) (sem sem' after after' : ℕ → ℕ) : Prop :=
  Set.EqOn after' after A ∧ Set.EqOn after' sem' (A : Set ℕ)ᶜ ∧ Set.EqOn after sem (A : Set ℕ)ᶜ

theorem Owned.refl {A : Finset ℕ} (h : Set.EqOn sem' sem A) : Owned A sem sem' sem sem' :=
  ⟨h, fun _ _ => rfl, fun _ _ => rfl⟩

theorem Owned.update {A : Finset ℕ} {i : ℕ} (h : Set.EqOn sem' sem A) (hi : i ∈ A) (f : ℕ → ℕ) :
    Owned A sem sem' (Function.update sem i (f (sem i))) (Function.update sem' i (f (sem' i))) := by
  have houtside (g : ℕ → ℕ) : Set.EqOn (Function.update g i (f (g i))) g (A : Set ℕ)ᶜ :=
    fun j hj => Function.update_of_ne (fun (heq : j = i) => hj (heq ▸ hi)) _ _
  refine ⟨fun j hj => ?_, houtside sem', houtside sem⟩
  by_cases hji : j = i
  · rw [hji, Function.update_self, Function.update_self, h hi]
  · rw [Function.update_of_ne hji, Function.update_of_ne hji, h hj]

theorem Args.own_mem (tid : Args) : tid.i ∈ tid.semaphores := Finset.mem_insert_self _ _

theorem Args.pair_mem (tid : Args) : tid.i + tid.M ∈ tid.semaphores :=
  Finset.mem_insert_of_mem (Finset.mem_singleton_self _)

theorem serverStep_owns (h : serverStep tid.toSession s tid.i = some t)
    (hsem : Set.EqOn sem' s.sem tid.semaphores) :
    ∃ t', serverStep tid.toSession { s with sem := sem' } tid.i = some t' ∧
      t' = { t with sem := t'.sem } ∧ Owned tid.semaphores s.sem sem' t.sem t'.sem := by
  have hown : sem' tid.i = s.sem tid.i := hsem tid.own_mem
  cases serverStep_iff.mp h with
  | foundZero hpc h1 h2 =>
    exact ⟨_, serverStep_iff.mpr (.foundZero hpc h1 h2), rfl, .refl hsem⟩
  | foundNext hpc h1 h2 =>
    exact ⟨_, serverStep_iff.mpr (.foundNext hpc h1 h2), rfl, .refl hsem⟩
  | foundAll hpc h1 => exact ⟨_, serverStep_iff.mpr (.foundAll hpc h1), rfl, .refl hsem⟩
  | take hpc h1 =>
    exact ⟨_, serverStep_iff.mpr (.take hpc (Nat.lt_of_lt_of_eq h1 hown.symm)), rfl,
      .update hsem tid.own_mem (· - 1)⟩
  | read hpc h1 => exact ⟨_, serverStep_iff.mpr (.read hpc h1), rfl, .refl hsem⟩
  | answer hpc => exact ⟨_, serverStep_iff.mpr (.answer hpc), rfl, .refl hsem⟩
  | finish hpc h1 => exact ⟨_, serverStep_iff.mpr (.finish hpc h1), rfl, .refl hsem⟩
  | post hpc =>
    exact ⟨_, serverStep_iff.mpr (.post hpc), rfl, .update hsem tid.pair_mem (· + 1)⟩

theorem clientStep_owns (h : clientStep tid.toSession s tid.i = some t)
    (hsem : Set.EqOn sem' s.sem tid.semaphores) :
    ∃ t', clientStep tid.toSession { s with sem := sem' } tid.i = some t' ∧
      t' = { t with sem := t'.sem } ∧ Owned tid.semaphores s.sem sem' t.sem t'.sem := by
  have hpair : sem' (tid.i + tid.M) = s.sem (tid.i + tid.M) := hsem tid.pair_mem
  cases clientStep_iff.mp h with
  | fill hpc h1 => exact ⟨_, clientStep_iff.mpr (.fill hpc h1), rfl, .refl hsem⟩
  | filled hpc h1 => exact ⟨_, clientStep_iff.mpr (.filled hpc h1), rfl, .refl hsem⟩
  | post hpc =>
    exact ⟨_, clientStep_iff.mpr (.post hpc), rfl, .update hsem tid.own_mem (· + 1)⟩
  | take hpc h1 =>
    exact ⟨_, clientStep_iff.mpr (.take hpc (Nat.lt_of_lt_of_eq h1 hpair.symm)), rfl,
      .update hsem tid.pair_mem (· - 1)⟩
  | wrong hpc h1 h2 => exact ⟨_, clientStep_iff.mpr (.wrong hpc h1 h2), rfl, .refl hsem⟩
  | right hpc h1 h2 => exact ⟨_, clientStep_iff.mpr (.right hpc h1 h2), rfl, .refl hsem⟩
  | again hpc h1 => exact ⟨_, clientStep_iff.mpr (.again hpc h1), rfl, .refl hsem⟩
  | leave hpc h1 => exact ⟨_, clientStep_iff.mpr (.leave hpc h1), rfl, .refl hsem⟩
  | incr hpc => exact ⟨_, clientStep_iff.mpr (.incr hpc), rfl, .refl hsem⟩
  | incrWrite hpc => exact ⟨_, clientStep_iff.mpr (.incrWrite hpc), rfl, .refl hsem⟩

end Own

end Guess
