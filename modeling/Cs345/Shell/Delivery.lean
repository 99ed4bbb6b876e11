import Cs345.Shell.Dataflow
import Mathlib.Data.Prod.Lex

namespace Shell
open Streams

variable {σ α : Type} {P : Programs σ α} {v : ArgVector} {input : List α} {out : ℕ → List α}
  {f f' : Flow σ α} {n j : ℕ} {p : σ}

section Account

def Account (P : Programs σ α) (n : ℕ) (c : Channel α) (written out : List α) : Phase σ → Prop
  | .before => c.taken = [] ∧ written = []
  | .during p => ∃ ys, Evaluates P.io n p c.unread ys ∧ written ++ ys = out
  | .after => written = out

variable {c c' : Channel α} {written goal : List α} {phase : Phase σ}

theorem Account.frame {m : ℕ} (h : Account P n c written goal phase)
    (hphase : ∀ p, phase ≠ .during p) (hc : phase = .before → c'.taken = c.taken) :
    Account P m c' written goal phase := by
  cases phase with
  | before => exact ⟨(hc rfl).trans h.1, h.2⟩
  | during p => exact absurd rfl (hphase p)
  | after => exact h

theorem account_move {m : ℕ} {q : σ} {a : Act α} {ys : List α} (ha : a ≠ .exit)
    (hrest : Evaluates P.io m q c'.unread ys) (hgoal : written ++ (a.output ++ ys) = goal) :
    Account P m c' (written ++ a.output) goal (if kind a = .exit then .after else .during q) := by
  rw [if_neg (mt (kind_exit a).mp ha)]
  exact ⟨ys, hrest, by rw [List.append_assoc, hgoal]⟩

theorem account_exit {m : ℕ} {q : σ} (hgoal : written = goal) :
    Account P m c' (written ++ (Act.exit : Act α).output) goal
      (if kind (Act.exit : Act α) = .exit then .after else .during q) := by
  simpa [Account, kind, Act.output] using hgoal

theorem Account.follow (hdet : Deterministic P.io) {q : σ} {a : Act α}
    (h : Account P n c written goal (.during p)) (hio : P.io p a q)
    (ht : Takes a c.unread c'.unread) :
    ∃ m, Account P m c' (written ++ a.output) goal
        (if kind a = .exit then .after else .during q) ∧ (a ≠ .exit → m < n) := by
  obtain ⟨ys, heval, hgoal⟩ := h
  by_cases ha : a = .exit
  · subst ha
    have hnil := heval.exits hdet hio
    exact ⟨n, account_exit (by rw [← hgoal, hnil, List.append_nil]), fun hne => absurd rfl hne⟩
  · obtain ⟨m, zs, hlt, hrest, rfl⟩ := heval.follow hdet hio ht ha
    exact ⟨m, account_move ha hrest hgoal, fun _ => hlt⟩

theorem Account.offers (h : Account P n c written goal (.during p)) :
    ∃ a q xs' m, P.io p a q ∧ Takes a c.unread xs' ∧
      (written ++ a.output).length ≤ goal.length ∧ (a ≠ .exit → m < n) ∧
      ∀ c' : Channel α, c'.unread = xs' → Account P m c' (written ++ a.output) goal
        (if kind a = .exit then .after else .during q) := by
  obtain ⟨ys, heval, hgoal⟩ := h
  cases heval with
  | exit hio =>
    rw [List.append_nil] at hgoal
    refine ⟨.exit, _, _, 0, hio, .exit, by simp [Act.output, hgoal], fun hne => absurd rfl hne,
      fun c' _ => account_exit hgoal⟩
  | move ha hio ht hrest =>
    refine ⟨_, _, _, _, hio, ht, ?_, fun _ => Nat.lt_succ_self _, fun c' hc' => ?_⟩
    · rw [← hgoal]
      simp only [List.length_append]
      omega
    · exact account_move ha (hc' ▸ hrest) hgoal

end Account

section Guided

def Guided (P : Programs σ α) (v : ArgVector) (out : ℕ → List α) (n : ℕ) (f : Flow σ α) : Prop :=
  ∀ j ≤ v.pipeCounter,
    Account P n (f.bytes.given j) (f.bytes.result v j) (out j) (f.shell.phase v j)

theorem guided_boot (h : FlowBoot input f) : Guided P v out n f := by
  intro j hj
  have hbefore : f.shell.phase v j = .before := by
    simp only [State.phase, h.shell.unborn j, h.shell.pc]
    split_ifs <;> rfl
  have := (flow_boot (P := P) (v := v) h).flowing j hj
  rw [hbefore] at this ⊢
  exact this

theorem Guided.given (hg : Guided P v out n f) (hi : FlowInv P v input f)
    (hj : j ≤ v.pipeCounter) (hafter : ∀ l < j, f.shell.phase v l = .after) :
    (f.bytes.given j).sent = inputOf input out j := by
  cases j with
  | zero => exact hi.input
  | succ j =>
    have := hg j (Nat.le_of_succ_le hj)
    rw [hafter j (Nat.lt_succ_self j), result_stage hj] at this
    exact this

theorem Guided.quiet {a : Actor} (hg : Guided P v out n f) (h : Inv v f.shell)
    (h' : Inv v f'.shell) (hplain : v.redirection.any = false) (hi : FlowInv P v input f)
    (hcomp : Composes P.io P.start input v.pipeCounter out) (hq : Quiet f.shell a)
    (hstep : Step P.world v f.shell a f'.shell) (hbytes : f'.bytes = f.bytes) :
    ∃ m, Guided P v out m f' := by
  have hphase := quiet_phase h hplain hq hstep
  by_cases hstarts : ∃ j ≤ v.pipeCounter, f.shell.phase v j = .before ∧
      f'.shell.phase v j = .during (P.start j)
  · obtain ⟨j, hj, hbefore, hduring⟩ := hstarts
    obtain ⟨m, heval⟩ := hcomp j hj
    refine ⟨m, fun l hl => ?_⟩
    rw [hbytes]
    by_cases hlj : l = j
    · subst hlj
      have hgl := hg l hl
      rw [hbefore] at hgl
      have hafter : ∀ i < l, f.shell.phase v i = .after := by
        intro i hil
        have := h'.in_order hj (by rw [hduring]; nofun) hil
        rcases hphase i with hsame | ⟨-, hrun⟩
        · rwa [hsame] at this
        · rw [hrun] at this
          cases this
      rw [hduring, hgl.2]
      refine ⟨out l, ?_, rfl⟩
      rw [← Channel.sent_eq hgl.1, hg.given hi hj hafter]
      exact heval
    · have hstill : f'.shell.phase v l = f.shell.phase v l := by
        rcases hphase l with hsame | ⟨-, hrun⟩
        · exact hsame
        · rcases h'.others hj hduring hl hlj with ⟨-, hx⟩ | ⟨-, hx⟩ <;> rw [hx] at hrun <;> cases hrun
      have hidle : ∀ p, f'.shell.phase v l ≠ .during p := by
        intro p hp
        rcases h'.others hj hduring hl hlj with ⟨-, hx⟩ | ⟨-, hx⟩ <;> rw [hx] at hp <;> cases hp
      rw [hstill] at hidle ⊢
      exact (hg l hl).frame hidle fun _ => rfl
  · refine ⟨n, fun l hl => ?_⟩
    rw [hbytes]
    rcases hphase l with hsame | ⟨hbefore, hrun⟩
    · rw [hsame]
      exact hg l hl
    · rw [Nat.min_eq_left hl] at hrun
      exact absurd ⟨l, hl, hbefore, hrun⟩ hstarts

theorem Guided.advances {m : ℕ} {a : Act α} {q : σ} (hg : Guided P v out n f) (h : Inv v f.shell)
    (hadv : Advances P v f j p a q f')
    (hj : Account P m (f'.bytes.given j) (f'.bytes.result v j) (out j) (f'.shell.phase v j)) :
    Guided P v out m f' := by
  obtain ⟨t, h0, h1, hmv⟩ := hadv.moves
  have hcar := hmv.carries hadv.le h0 h1
  intro l hl
  by_cases hlj : l = j
  · rwa [hlj]
  · rw [hadv.others l hl hlj, hcar.others l hl hlj]
    refine (hg l hl).frame ?_ fun _ => hcar.taken l hlj
    rcases h.others hadv.le hadv.runs hl hlj with ⟨-, hx⟩ | ⟨-, hx⟩ <;> rw [hx] <;> nofun

end Guided

section Enabled

theorem moves_exists {capacity : ℕ} {Writers : ℕ → Prop} {t : FdTable} {d : Bytes α} {a : Act α}
    {xs : List α} (h0 : t 0 = some (source j)) (h1 : t 1 = some (sink v j))
    (ht : Takes a (d.given j).unread xs) (hw : ∀ p, j = p + 1 → ¬ Writers p)
    (hfits : j < v.pipeCounter → a.output ≠ [] → (d.pipe j).unread.length < capacity) :
    ∃ d', Moves capacity Writers t d a d' := by
  cases a with
  | read x =>
    generalize hc : (d.given j).unread = ys at ht
    cases ht
    cases j with
    | zero => exact ⟨_, .readStdin h0 hc⟩
    | succ j => exact ⟨_, .readPipe h0 hc⟩
  | eof =>
    generalize hc : (d.given j).unread = ys at ht
    cases ht
    cases j with
    | zero => exact ⟨_, .eofStdin h0 hc⟩
    | succ j => exact ⟨_, .eofPipe h0 hc (hw j rfl)⟩
  | write y =>
    by_cases hj : j < v.pipeCounter
    · rw [sink, if_pos hj] at h1
      exact ⟨_, .writePipe h1 (hfits hj (by simp [Act.output]))⟩
    · rw [sink, if_neg hj] at h1
      exact ⟨_, .writeStdout h1⟩
  | exit => exact ⟨_, .exit⟩

theorem Inv.not_writers_before (h : Inv v f.shell) (hj : j ≤ v.pipeCounter)
    (hphase : f.shell.phase v j = .during p) : ∀ l, j = l + 1 → ¬ f.shell.Writers l := by
  rintro l rfl hw
  obtain ⟨hunborn, hnot⟩ := h.writers hw
  rcases Nat.lt_or_eq_of_le hj with hlt | heq
  · rw [phase_stage hlt, hunborn] at hphase
    cases hphase
  · rw [heq, phase_main] at hphase
    cases hpc : f.shell.pc with
    | running q => exact hnot ⟨q, hpc⟩
    | _ => rw [hpc] at hphase; cases hphase

theorem flow_enabled {a : Act α} {q : σ} (h : Inv v f.shell) (hj : j ≤ v.pipeCounter)
    (hphase : f.shell.phase v j = .during p) (hio : P.io p a q)
    (hmv : ∀ t : FdTable, t 0 = some (source j) → t 1 = some (sink v j) →
      ∃ d, Moves P.capacity f.shell.Writers t f.bytes a d) :
    ∃ b f', FlowStep P v f b f' ∧ Advances P v f j p a q f' := by
  rcases Nat.lt_or_eq_of_le hj with hlt | rfl
  · have hpc : (f.shell.stage j).pc = .running p := by
      rw [phase_stage hlt] at hphase
      cases hpc : (f.shell.stage j).pc <;> rw [hpc] at hphase <;> cases hphase
      rfl
    obtain ⟨-, h0, h1⟩ := h.stage_ends hpc
    obtain ⟨d, hd⟩ := hmv _ h0 h1
    exact ⟨_, _, .stageRun hpc hio hd, stageRun_advances h hpc hio hd⟩
  · have hpc : f.shell.pc = .running p := by
      rw [phase_main] at hphase
      cases hpc : f.shell.pc <;> rw [hpc] at hphase <;> cases hphase
      rfl
    have hm := h.main
    simp only [MainInv, hpc] at hm
    obtain ⟨d, hd⟩ := hmv _ hm.1.source (h.stdout.trans (by simp [sink]))
    exact ⟨_, _, .run hpc hio hd, run_advances h hpc hio hd⟩

theorem Inv.quiet_enabled (h : Inv v f.shell) (hplain : v.redirection.any = false)
    (hne : ∀ st ∈ v.stages, st ≠ []) (hx : f.shell.pc ≠ .exited)
    (hidle : ∀ j ≤ v.pipeCounter, ∀ p, f.shell.phase v j ≠ .during p) :
    ∃ a s, Quiet f.shell a ∧ Step P.world v f.shell a s := by
  have hstage {j : ℕ} {p : σ} (hpc : (f.shell.stage j).pc = .running p) : False := by
    have hj := h.live_lt (j := j) (by rw [hpc]; rfl)
    exact hidle j (Nat.le_of_lt hj) p (by rw [phase_stage hj, hpc]; rfl)
  have hmain {p : σ} (hpc : f.shell.pc = .running p) : False :=
    hidle _ (Nat.le_refl _) p (by rw [phase_main, hpc]; rfl)
  rcases h.progress (W := P.world) hplain hne hx with ⟨a, s, hs⟩ | ⟨j, p, hpc⟩ | ⟨p, hpc⟩
  · refine ⟨a, s, ?_, hs⟩
    cases a with
    | main => exact fun p hpc => hmain hpc
    | stage j => exact fun p hpc => hstage hpc
  · exact (hstage hpc).elim
  · exact (hmain hpc).elim

end Enabled

section Delivery

abbrev Earlier : ℕ × ℕ → ℕ × ℕ → Prop := Prod.Lex (· < ·) (· < ·)

theorem earlier_wf : WellFounded Earlier := WellFounded.prod_lex Nat.lt_wfRel.wf Nat.lt_wfRel.wf

def Guide (P : Programs σ α) (v : ArgVector) (out : ℕ → List α) (i : ℕ × ℕ) (f : Flow σ α) : Prop :=
  f.shell.left v = i.1 ∧ Guided P v out i.2 f

theorem Advances.earlier {m : ℕ} {a : Act α} {q : σ} (hadv : Advances P v f j p a q f')
    (hlt : a ≠ .exit → m < n) : Earlier (f'.shell.left v, m) (f.shell.left v, n) := by
  have hleft := hadv.left
  split_ifs at hleft with ha
  · exact .left _ _ (by omega)
  · rw [Nat.add_zero] at hleft
    rw [hleft]
    exact .right _ (hlt (mt (kind_exit a).mpr ha))

variable (hplain : v.redirection.any = false) (hne : ∀ st ∈ v.stages, st ≠ [])
include hplain hne

theorem guide_offers {i : ℕ × ℕ} (hcomp : Composes P.io P.start input v.pipeCounter out)
    (hfits : ∀ j < v.pipeCounter, (out j).length ≤ P.capacity)
    (hf : (flow P v input).Reachable f) (hg : Guide P v out i f) (hx : f.shell.pc ≠ .exited) :
    ∃ a f' i', FlowStep P v f a f' ∧ Guide P v out i' f' ∧ Earlier i' i := by
  obtain ⟨h, hi⟩ := flowInv_reachable hplain hne hf
  obtain ⟨w, n⟩ := i
  obtain ⟨rfl, hg⟩ := hg
  by_cases hrun : ∃ j ≤ v.pipeCounter, ∃ p, f.shell.phase v j = .during p
  · obtain ⟨j, hj, p, hphase⟩ := hrun
    have hacc := hg j hj
    rw [hphase] at hacc
    obtain ⟨a, q, xs, m, hio, ht, hlen, hlt, hnext⟩ := hacc.offers
    obtain ⟨b, f', hstep, hadv⟩ := flow_enabled h hj hphase hio fun t h0 h1 =>
      moves_exists h0 h1 ht (h.not_writers_before hj hphase) fun hjk hout => by
        have hcap := hfits j hjk
        rw [result_stage hjk, List.length_append] at hlen
        have hpos := List.length_pos_iff.mpr hout
        simp only [Channel.sent, List.length_append] at hlen
        omega
    obtain ⟨t, h0, h1, hmv⟩ := hadv.moves
    have hcar := hmv.carries hadv.le h0 h1
    refine ⟨b, f', _, hstep, ⟨rfl, hg.advances h hadv ?_⟩, hadv.earlier hlt⟩
    rw [hcar.writes, hadv.next]
    exact hnext _ (hcar.takes.unique ht)
  · push Not at hrun
    obtain ⟨a, s, hq, hs⟩ := h.quiet_enabled (P := P) hplain hne hx hrun
    have h' : Inv v s := inv_step hplain hne h hs
    obtain ⟨m, hm⟩ : ∃ m, Guided P v out m { f with shell := s } :=
      hg.quiet h h' hplain hi hcomp hq hs rfl
    exact ⟨a, _, _, .shell hq hs, ⟨rfl, hm⟩, .left _ _ (quiet_left h hplain hq hs)⟩

theorem guide_follows {i : ℕ × ℕ} {a : Actor} (hdet : Deterministic P.io)
    (hcomp : Composes P.io P.start input v.pipeCounter out)
    (hf : (flow P v input).Reachable f) (hg : Guide P v out i f) (hstep : FlowStep P v f a f') :
    ∃ i', Guide P v out i' f' ∧ Earlier i' i := by
  obtain ⟨h, hi⟩ := flowInv_reachable hplain hne hf
  obtain ⟨w, n⟩ := i
  obtain ⟨rfl, hg⟩ := hg
  rcases flow_cases h hstep with ⟨hq, hs, hbytes⟩ | ⟨j, p, b, q, hadv⟩
  · obtain ⟨m, hm⟩ := hg.quiet h (inv_step hplain hne h hs) hplain hi hcomp hq hs hbytes
    exact ⟨_, ⟨rfl, hm⟩, .left _ _ (quiet_left h hplain hq hs)⟩
  · obtain ⟨t, h0, h1, hmv⟩ := hadv.moves
    have hcar := hmv.carries hadv.le h0 h1
    have hacc := hg j hadv.le
    rw [hadv.runs] at hacc
    obtain ⟨m, hnext, hlt⟩ := hacc.follow hdet hadv.io hcar.takes
    refine ⟨_, ⟨rfl, hg.advances h hadv ?_⟩, hadv.earlier hlt⟩
    rw [hcar.writes, hadv.next]
    exact hnext

omit hplain hne in
theorem flow_starts (P : Programs σ α) (v : ArgVector) (input : List α) :
    ∃ f, (flow P v input).Reachable f ∧ FlowBoot input f := by
  have hboot : FlowBoot input (⟨{ bootState with channels := (Bytes.boot input).channels },
      .boot input⟩ : Flow σ α) :=
    ⟨{ boot_state (σ := σ) with held := fun _ => rfl }, rfl, rfl⟩
  exact ⟨_, .init hboot, hboot⟩

omit hplain hne in
theorem FlowInv.delivered (hi : FlowInv P v input f) (h : Inv v f.shell)
    (hx : f.shell.pc = .exited) :
    Composes P.io P.start input v.pipeCounter (f.bytes.result v) ∧
      ∀ j < v.pipeCounter, (f.bytes.result v j).length ≤ P.capacity := by
  refine ⟨hi.composes ((done_iff h).mpr hx), fun j hj => ?_⟩
  rw [result_stage hj]
  exact hi.fits j hj

theorem exited_composes (hf : (flow P v input).Reachable f) (hx : f.shell.pc = .exited) :
    ∃ out, Composes P.io P.start input v.pipeCounter out ∧
      (∀ j < v.pipeCounter, (out j).length ≤ P.capacity) ∧ out v.pipeCounter = f.bytes.stdout := by
  obtain ⟨h, hi⟩ := flowInv_reachable hplain hne hf
  obtain ⟨hcomp, hfits⟩ := hi.delivered h hx
  exact ⟨_, hcomp, hfits, result_main⟩

theorem composes_exited (hcomp : Composes P.io P.start input v.pipeCounter out)
    (hfits : ∀ j < v.pipeCounter, (out j).length ≤ P.capacity) :
    ∃ f, (flow P v input).Reachable f ∧ f.shell.pc = .exited ∧
      f.bytes.stdout = out v.pipeCounter := by
  obtain ⟨f0, hf0, hboot⟩ := flow_starts P v input
  obtain ⟨i, f, hf, ⟨-, hg⟩, hx⟩ := hf0.follow earlier_wf
    (fun i f hf hg hx => guide_offers hplain hne hcomp hfits hf hg hx)
    (i := (f0.shell.left v, 0)) ⟨rfl, guided_boot hboot⟩
  refine ⟨f, hf, hx, ?_⟩
  have := hg _ (Nat.le_refl _)
  rw [phase_main, hx, result_main] at this
  exact this

theorem delivers_iff {ys : List α} :
    (∃ f, (flow P v input).Reachable f ∧ f.shell.pc = .exited ∧ f.bytes.stdout = ys) ↔
      ∃ out, Composes P.io P.start input v.pipeCounter out ∧
        (∀ j < v.pipeCounter, (out j).length ≤ P.capacity) ∧ out v.pipeCounter = ys := by
  constructor
  · rintro ⟨f, hf, hx, rfl⟩
    exact exited_composes hplain hne hf hx
  · rintro ⟨out, hcomp, hfits, rfl⟩
    exact composes_exited hplain hne hcomp hfits

section Deterministic
variable (hdet : Deterministic P.io) (hcomp : Composes P.io P.start input v.pipeCounter out)
include hdet hcomp

theorem guide_reachable (hf : (flow P v input).Reachable f) : ∃ i, Guide P v out i f := by
  induction hf with
  | init h => exact ⟨(_, 0), rfl, guided_boot h⟩
  | step hr hstep ih =>
    obtain ⟨i, hg⟩ := ih
    obtain ⟨i', hg', -⟩ := guide_follows hplain hne hdet hcomp hr hg hstep
    exact ⟨i', hg'⟩

theorem stuck_reached : ∃ f, (flow P v input).Reachable f ∧ (flow P v input).Stuck f := by
  obtain ⟨f0, hf0, -⟩ := flow_starts P v input
  obtain ⟨i0, hg0⟩ := guide_reachable hplain hne hdet hcomp hf0
  obtain ⟨i, f, hf, -, hstuck⟩ := hf0.follow (D := (flow P v input).Stuck) earlier_wf
    (fun i f hf hg hst => by
      simp only [Machine.Stuck, Machine.Enabled, not_forall, not_not] at hst
      obtain ⟨a, f', hstep⟩ := hst
      obtain ⟨i', hg', hlt⟩ := guide_follows hplain hne hdet hcomp hf hg hstep
      exact ⟨a, f', i', hstep, hg', hlt⟩) hg0
  exact ⟨f, hf, hstuck⟩

theorem exited_of_stuck (hfits : ∀ j < v.pipeCounter, (out j).length ≤ P.capacity)
    (hf : (flow P v input).Reachable f) (hstuck : (flow P v input).Stuck f) :
    f.shell.pc = .exited := by
  by_contra hx
  obtain ⟨i, hg⟩ := guide_reachable hplain hne hdet hcomp hf
  obtain ⟨a, f', -, hstep, -⟩ := guide_offers hplain hne hcomp hfits hf hg hx
  exact hstuck a ⟨f', hstep⟩

theorem exited_results (hf : (flow P v input).Reachable f) (hx : f.shell.pc = .exited) :
    (∀ j ≤ v.pipeCounter, f.bytes.result v j = out j) ∧
      ∀ j < v.pipeCounter, (out j).length ≤ P.capacity := by
  obtain ⟨h, hi⟩ := flowInv_reachable hplain hne hf
  obtain ⟨hcomp', hfits⟩ := hi.delivered h hx
  have hout := hcomp'.unique hdet hcomp
  exact ⟨hout, fun j hj => hout j (Nat.le_of_lt hj) ▸ hfits j hj⟩

end Deterministic

theorem deterministic_delivery (hdet : Deterministic P.io)
    (hcomp : Composes P.io P.start input v.pipeCounter out) :
    ((∀ f, (flow P v input).Reachable f → (flow P v input).Stuck f → f.shell.pc = .exited) ↔
      ∀ j < v.pipeCounter, (out j).length ≤ P.capacity) ∧
    ∀ f, (flow P v input).Reachable f → f.shell.pc = .exited →
      ∀ j ≤ v.pipeCounter, f.bytes.result v j = out j := by
  refine ⟨⟨fun hall => ?_, fun hfits f hf hstuck => ?_⟩, fun f hf hx => ?_⟩
  · obtain ⟨f, hf, hstuck⟩ := stuck_reached hplain hne hdet hcomp
    exact (exited_results hplain hne hdet hcomp hf (hall f hf hstuck)).2
  · exact exited_of_stuck hplain hne hdet hcomp hfits hf hstuck
  · exact (exited_results hplain hne hdet hcomp hf hx).1

end Delivery

section Sample

inductive Copier where
  | ready
  | holding (b : Bool)
  | ended

inductive Copier.Act : Copier → Streams.Act Bool → Copier → Prop
  | read {b : Bool} : Copier.Act .ready (.read b) (.holding b)
  | eof : Copier.Act .ready .eof .ended
  | write {b : Bool} : Copier.Act (.holding b) (.write b) .ready
  | exit : Copier.Act .ended .exit .ended

theorem copier_deterministic : Deterministic Copier.Act where
  same h h' := by cases h <;> cases h' <;> rfl
  both_read h h' hne := by cases h <;> cases h' <;> first | exact ⟨rfl, rfl⟩ | exact absurd rfl hne

theorem copier_copies (xs : List Bool) : Produces Copier.Act .ready xs xs := by
  induction xs with
  | nil => exact ⟨_, .move (by nofun) .eof .eof (.exit .exit)⟩
  | cons x xs ih =>
    obtain ⟨n, ih⟩ := ih
    exact ⟨_, .move (by nofun) .read .read (.move (by nofun) .write .write ih)⟩

def copiers (capacity : ℕ) : Programs Copier Bool := ⟨fun _ => .ready, Copier.Act, true, capacity⟩

theorem copies_delivered : ∃ f, (flow (copiers 2) catPipe [true, false]).Reachable f ∧
    f.shell.pc = .exited ∧ f.bytes.stdout = [true, false] :=
  (delivers_iff (by decide) (by decide)).mpr
    ⟨fun _ => [true, false], fun j _ => by cases j <;> exact copier_copies _, by decide, rfl⟩

theorem small_pipe_blocks : ¬ ∀ f, (flow (copiers 1) catPipe [true, false]).Reachable f →
    (flow (copiers 1) catPipe [true, false]).Stuck f → f.shell.pc = .exited := by
  intro hall
  have hcomp : Composes Copier.Act (copiers 1).start [true, false] catPipe.pipeCounter
      fun _ => [true, false] := fun j _ => by cases j <;> exact copier_copies _
  have := (deterministic_delivery (by decide) (by decide) copier_deterministic hcomp).1.mp hall 0
    (by decide)
  exact absurd this (by decide)

end Sample
end Shell
