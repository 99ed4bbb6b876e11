import Cs345.Machine
import Cs345.Guess.Game
import Mathlib.Logic.Function.Basic

namespace Guess

def alphanum : List ℕ :=
  "ABCDEFGHIJKLMNOPQRSTUVWXYZabcdefghijklmnopqrstuvwxyz".toList.map Char.toNat

def createString (rand : ℕ → ℕ) (i : ℕ) : ℕ := alphanum.getD (rand i % 52) 0

theorem createString_letter (rand : ℕ → ℕ) (i : ℕ) : IsLetter (createString rand i) := by
  have hall : ∀ j < 52, (65 ≤ alphanum.getD j 0 ∧ alphanum.getD j 0 ≤ 90) ∨
      (97 ≤ alphanum.getD j 0 ∧ alphanum.getD j 0 ≤ 122) := by decide
  exact hall _ (Nat.mod_lt _ (by omega))

structure Session where
  N : ℕ
  M : ℕ
  secretString : ℕ → ℕ
  N_pos : 1 ≤ N
  M_pos : 1 ≤ M
  letters : ∀ k < N, IsLetter (secretString k)

namespace Session
variable (P : Session)

def low (i : ℕ) : ℕ := i * (P.N / P.M)
def high (i : ℕ) : ℕ := (i + 1) * (P.N / P.M)

theorem low_le_high (i : ℕ) : P.low i ≤ P.high i :=
  Nat.mul_le_mul_right _ (Nat.le_succ i)

theorem high_le_low {i j : ℕ} (h : i < j) : P.high i ≤ P.low j := Nat.mul_le_mul_right _ h

theorem high_le {i : ℕ} (hi : i < P.M) : P.high i ≤ P.N :=
  (Nat.mul_le_mul_right _ hi).trans (Nat.mul_div_le P.N P.M)

theorem letter {i k : ℕ} (hi : i < P.M) (hk : k < P.high i) : IsLetter (P.secretString k) :=
  P.letters k (hk.trans_le (P.high_le hi))

theorem low_lt_high_iff {i : ℕ} : P.low i < P.high i ↔ P.M ≤ P.N := by
  have hs : P.high i = P.low i + P.N / P.M := Nat.succ_mul _ _
  rw [hs, Nat.lt_add_right_iff_pos, Nat.div_pos_iff]
  exact ⟨fun h => h.2, fun h => ⟨P.M_pos, h⟩⟩

theorem ranges_disjoint {i j k l : ℕ} (hij : i ≠ j) (hi : P.low i ≤ k ∧ k < P.high i)
    (hj : P.low j ≤ l ∧ l < P.high j) : k ≠ l := by
  rcases Nat.lt_or_gt_of_ne hij with h | h
  · have := P.high_le_low h; omega
  · have := P.high_le_low h; omega

end Session

inductive ServerPc where
  | found (i : ℕ)
  | wait
  | compare (i : ℕ)
  | compareWrite (i c : ℕ)
  | post
  | exited
deriving DecidableEq, Repr

inductive ClientPc where
  | fill (i : ℕ)
  | post
  | wait
  | scan (k : ℕ) (flag : Bool)
  | incr (k : ℕ)
  | incrWrite (k c : ℕ)
  | exited
deriving DecidableEq, Repr

-- `rounds` counts the finished calls of compare_with_string; no thread reads it
structure State where
  shm1 : ℕ → ℕ
  shm2 : ℕ → ℕ
  sem : ℕ → ℕ
  server : ℕ → ServerPc
  client : ℕ → ClientPc
  rounds : ℕ → ℕ
  reported : Bool
  guessed : Bool

namespace State
variable (s : State)

@[simp] def goServer (i : ℕ) (pc : ServerPc) : State :=
  { s with server := Function.update s.server i pc }
@[simp] def goClient (i : ℕ) (pc : ClientPc) : State :=
  { s with client := Function.update s.client i pc }
@[simp] def setShm1 (k v : ℕ) : State := { s with shm1 := Function.update s.shm1 k v }
@[simp] def setShm2 (k v : ℕ) : State := { s with shm2 := Function.update s.shm2 k v }
@[simp] def semPost (j : ℕ) : State := { s with sem := Function.update s.sem j (s.sem j + 1) }
@[simp] def semWait (j : ℕ) : State := { s with sem := Function.update s.sem j (s.sem j - 1) }
@[simp] def countRound (i : ℕ) : State :=
  { s with rounds := Function.update s.rounds i (s.rounds i + 1) }

end State

variable (P : Session)

def serverStep (s : State) (i : ℕ) : Option State :=
  match s.server i with
  | .found k =>
    if k < P.high i then
      if s.shm2 k = 0 then some (s.goServer i .wait) else some (s.goServer i (.found (k + 1)))
    else some (s.goServer i .exited)
  | .wait =>
    if 0 < s.sem i then some ((s.semWait i).goServer i (.compare (P.low i))) else none
  | .compare k =>
    if k < P.high i then some (s.goServer i (.compareWrite k (s.shm1 k)))
    else some ((s.countRound i).goServer i .post)
  | .compareWrite k c =>
    some ((s.setShm2 k (if c = P.secretString k then 1 else 0)).goServer i (.compare (k + 1)))
  | .post => some ((s.semPost (i + P.M)).goServer i (.found (P.low i)))
  | .exited => none

-- a char wraps at 256; the shared element is read and written back in two steps by `++`
def clientStep (s : State) (i : ℕ) : Option State :=
  match s.client i with
  | .fill k =>
    if k < P.high i then some ((s.setShm1 k 65).goClient i (.fill (k + 1)))
    else some (s.goClient i .post)
  | .post => some ((s.semPost i).goClient i .wait)
  | .wait =>
    if 0 < s.sem (i + P.M) then
      some ((s.semWait (i + P.M)).goClient i (.scan (P.low i) false))
    else none
  | .scan k flag =>
    if k < P.high i then
      if s.shm2 k = 0 then some (s.goClient i (.incr k))
      else some (s.goClient i (.scan (k + 1) flag))
    else if flag then some (s.goClient i .post) else some (s.goClient i .exited)
  | .incr k => some (s.goClient i (.incrWrite k (s.shm1 k)))
  | .incrWrite k c => some ((s.setShm1 k ((c + 1) % 256)).goClient i (.scan (k + 1) true))
  | .exited => none

inductive Actor where
  | server (i : ℕ)
  | client (i : ℕ)
  | serverMain
  | clientMain
deriving DecidableEq, Repr

def Actor.isThread : Actor → Bool
  | .server _ | .client _ => true
  | _ => false

def step (s : State) : Actor → Option State
  | .server i => if i < P.M then serverStep P s i else none
  | .client i => if i < P.M then clientStep P s i else none
  | .serverMain =>
    if s.reported = false ∧ ∀ i < P.M, s.server i = .exited then some { s with reported := true }
    else none
  | .clientMain =>
    if s.guessed = false ∧ ∀ i < P.M, s.client i = .exited then some { s with guessed := true }
    else none

def start : State where
  shm1 _ := 48
  shm2 _ := 0
  sem _ := 0
  server i := .found (P.low i)
  client i := .fill (P.low i)
  rounds _ := 0
  reported := false
  guessed := false

def protocol : Machine State Actor := Machine.ofFn (· = start P) (step P)

theorem reachable_start : (protocol P).Reachable (start P) := .init rfl

section Moves
variable (s : State) (i : ℕ)

inductive ServerMove : State → Prop
  | foundZero {k : ℕ} : s.server i = .found k → k < P.high i → s.shm2 k = 0 →
      ServerMove (s.goServer i .wait)
  | foundNext {k : ℕ} : s.server i = .found k → k < P.high i → s.shm2 k ≠ 0 →
      ServerMove (s.goServer i (.found (k + 1)))
  | foundAll {k : ℕ} : s.server i = .found k → P.high i ≤ k → ServerMove (s.goServer i .exited)
  | take : s.server i = .wait → 0 < s.sem i →
      ServerMove ((s.semWait i).goServer i (.compare (P.low i)))
  | read {k : ℕ} : s.server i = .compare k → k < P.high i →
      ServerMove (s.goServer i (.compareWrite k (s.shm1 k)))
  | answer {k c : ℕ} : s.server i = .compareWrite k c →
      ServerMove ((s.setShm2 k (if c = P.secretString k then 1 else 0)).goServer i (.compare (k + 1)))
  | finish {k : ℕ} : s.server i = .compare k → P.high i ≤ k →
      ServerMove ((s.countRound i).goServer i .post)
  | post : s.server i = .post → ServerMove ((s.semPost (i + P.M)).goServer i (.found (P.low i)))

inductive ClientMove : State → Prop
  | fill {k : ℕ} : s.client i = .fill k → k < P.high i →
      ClientMove ((s.setShm1 k 65).goClient i (.fill (k + 1)))
  | filled {k : ℕ} : s.client i = .fill k → P.high i ≤ k → ClientMove (s.goClient i .post)
  | post : s.client i = .post → ClientMove ((s.semPost i).goClient i .wait)
  | take : s.client i = .wait → 0 < s.sem (i + P.M) →
      ClientMove ((s.semWait (i + P.M)).goClient i (.scan (P.low i) false))
  | wrong {k : ℕ} {flag : Bool} : s.client i = .scan k flag → k < P.high i → s.shm2 k = 0 →
      ClientMove (s.goClient i (.incr k))
  | right {k : ℕ} {flag : Bool} : s.client i = .scan k flag → k < P.high i → s.shm2 k ≠ 0 →
      ClientMove (s.goClient i (.scan (k + 1) flag))
  | again {k : ℕ} : s.client i = .scan k true → P.high i ≤ k → ClientMove (s.goClient i .post)
  | leave {k : ℕ} : s.client i = .scan k false → P.high i ≤ k →
      ClientMove (s.goClient i .exited)
  | incr {k : ℕ} : s.client i = .incr k → ClientMove (s.goClient i (.incrWrite k (s.shm1 k)))
  | incrWrite {k c : ℕ} : s.client i = .incrWrite k c →
      ClientMove ((s.setShm1 k ((c + 1) % 256)).goClient i (.scan (k + 1) true))

variable {P s i}

theorem serverStep_iff {t : State} : serverStep P s i = some t ↔ ServerMove P s i t := by
  constructor
  · intro h
    simp only [serverStep] at h
    cases hpc : s.server i with
    | found k =>
      simp only [hpc] at h
      split_ifs at h with h1 h2 <;> cases h
      · exact .foundZero hpc h1 h2
      · exact .foundNext hpc h1 h2
      · exact .foundAll hpc (by omega)
    | wait =>
      simp only [hpc] at h
      split_ifs at h with h1; cases h
      exact .take hpc h1
    | compare k =>
      simp only [hpc] at h
      split_ifs at h with h1 <;> cases h
      · exact .read hpc h1
      · exact .finish hpc (by omega)
    | compareWrite k c => simp only [hpc] at h; cases h; exact .answer hpc
    | post => simp only [hpc] at h; cases h; exact .post hpc
    | exited => simp [hpc] at h
  · intro h
    cases h with
    | foundZero hpc h1 h2 => simp [serverStep, hpc, h1, h2]
    | foundNext hpc h1 h2 => simp [serverStep, hpc, h1, h2]
    | foundAll hpc h1 => simp [serverStep, hpc, Nat.not_lt.mpr h1]
    | take hpc h1 => simp [serverStep, hpc, h1]
    | read hpc h1 => simp [serverStep, hpc, h1]
    | answer hpc => simp [serverStep, hpc]
    | finish hpc h1 => simp [serverStep, hpc, Nat.not_lt.mpr h1]
    | post hpc => simp [serverStep, hpc]

theorem clientStep_iff {t : State} : clientStep P s i = some t ↔ ClientMove P s i t := by
  constructor
  · intro h
    simp only [clientStep] at h
    cases hpc : s.client i with
    | fill k =>
      simp only [hpc] at h
      split_ifs at h with h1 <;> cases h
      · exact .fill hpc h1
      · exact .filled hpc (by omega)
    | post => simp only [hpc] at h; cases h; exact .post hpc
    | wait =>
      simp only [hpc] at h
      split_ifs at h with h1; cases h
      exact .take hpc h1
    | scan k flag =>
      simp only [hpc] at h
      split_ifs at h with h1 h2 h3 <;> cases h
      · exact .wrong hpc h1 h2
      · exact .right hpc h1 h2
      · exact .again (h3 ▸ hpc) (by omega)
      · exact .leave (Bool.eq_false_iff.mpr h3 ▸ hpc) (by omega)
    | incr k => simp only [hpc] at h; cases h; exact .incr hpc
    | incrWrite k c => simp only [hpc] at h; cases h; exact .incrWrite hpc
    | exited => simp [hpc] at h
  · intro h
    cases h with
    | fill hpc h1 => simp [clientStep, hpc, h1]
    | filled hpc h1 => simp [clientStep, hpc, Nat.not_lt.mpr h1]
    | post hpc => simp [clientStep, hpc]
    | take hpc h1 => simp [clientStep, hpc, h1]
    | wrong hpc h1 h2 => simp [clientStep, hpc, h1, h2]
    | right hpc h1 h2 => simp [clientStep, hpc, h1, h2]
    | again hpc h1 => simp [clientStep, hpc, Nat.not_lt.mpr h1]
    | leave hpc h1 => simp [clientStep, hpc, Nat.not_lt.mpr h1]
    | incr hpc => simp [clientStep, hpc]
    | incrWrite hpc => simp [clientStep, hpc]

inductive Move (P : Session) (s : State) : State → Prop
  | server {i : ℕ} {t : State} : i < P.M → ServerMove P s i t → Move P s t
  | client {i : ℕ} {t : State} : i < P.M → ClientMove P s i t → Move P s t
  | report : s.reported = false → (∀ i < P.M, s.server i = .exited) →
      Move P s { s with reported := true }
  | guess : s.guessed = false → (∀ i < P.M, s.client i = .exited) →
      Move P s { s with guessed := true }

theorem protocol_move {a : Actor} {t : State} (h : (protocol P).step s a t) : Move P s t := by
  change step P s a = some t at h
  cases a with
  | server i =>
    simp only [step] at h
    split_ifs at h with hi
    exact .server hi (serverStep_iff.mp h)
  | client i =>
    simp only [step] at h
    split_ifs at h with hi
    exact .client hi (clientStep_iff.mp h)
  | serverMain =>
    simp only [step] at h
    split_ifs at h with hi; cases h
    exact .report hi.1 hi.2
  | clientMain =>
    simp only [step] at h
    split_ifs at h with hi; cases h
    exact .guess hi.1 hi.2

end Moves
end Guess
