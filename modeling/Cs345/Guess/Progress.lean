import Cs345.Guess.Outcome
import Cs345.Guess.Sessions

namespace Guess

section Processes
variable {P : Session} {p p' : Process} {side : Side} {i j : ℕ} {pc : ThreadPc} {tid : Args}

structure Ready (side : Side) (p : Process) : Prop where
  born : ∀ i < p.created, p.thread i ≠ .unborn
  held : ∀ i, p.mutex = some i → (p.thread i).holds = true
  locked : ∀ i, p.thread i = .locked → side = .server
  copied : ∀ i tid, p.thread i = .copied tid → side = .client

theorem ready_opened (P : Session) (p : Process) : Ready side (p.opened P) where
  born i hi := absurd hi (Nat.not_lt_zero i)
  held := nofun
  locked := nofun
  copied := nofun

theorem Ready.go (h : Ready side p) {mutex : Option ℕ} (hpc : pc ≠ .unborn)
    (hheld : ∀ j, mutex = some j → (Function.update p.thread i pc j).holds = true)
    (hlocked : pc = .locked → side = .server)
    (hcopied : ∀ tid, pc = .copied tid → side = .client) :
    Ready side { p.go i pc with mutex := mutex } where
  born j hj := by
    change Function.update p.thread i pc j ≠ .unborn
    by_cases hji : j = i
    · rwa [hji, Function.update_self]
    · rw [Function.update_of_ne hji]
      exact h.born j hj
  held := hheld
  locked j hj := by
    change Function.update p.thread i pc j = .locked at hj
    by_cases hji : j = i
    · rw [hji, Function.update_self] at hj
      exact hlocked hj
    · rw [Function.update_of_ne hji] at hj
      exact h.locked j hj
  copied j tid hj := by
    change Function.update p.thread i pc j = .copied tid at hj
    by_cases hji : j = i
    · rw [hji, Function.update_self] at hj
      exact hcopied tid hj
    · rw [Function.update_of_ne hji] at hj
      exact h.copied j tid hj

theorem held_lock (p : Process) (i : ℕ) (hpc : pc.holds = true) (j : ℕ) (hj : some i = some j) :
    (Function.update p.thread i pc j).holds = true := by
  rw [← Option.some.inj hj, Function.update_self]
  exact hpc

theorem Ready.held_keep (h : Ready side p) (hkeep : (p.thread i).holds = true → pc.holds = true)
    (j : ℕ) (hj : p.mutex = some j) : (Function.update p.thread i pc j).holds = true := by
  have hold := h.held j hj
  by_cases hji : j = i
  · subst hji
    rw [Function.update_self]
    exact hkeep hold
  · rwa [Function.update_of_ne hji]

theorem Ready.create (h : Ready side p) (hnew : p.thread p.created = .unborn) :
    Ready side { p.go p.created .fresh with created := p.created + 1 } := by
  have hgo : Ready side (p.go p.created .fresh) :=
    h.go nofun (h.held_keep fun hold => by rw [hnew] at hold; cases hold) nofun nofun
  refine ⟨fun i hi => ?_, hgo.held, hgo.locked, hgo.copied⟩
  rcases Nat.lt_succ_iff_lt_or_eq.mp hi with hlt | rfl
  · exact hgo.born i hlt
  · change Function.update p.thread p.created .fresh p.created ≠ .unborn
    rw [Function.update_self]
    nofun

theorem ready_step (hn : Numbered P p) (h : Ready side p) (hstep : ProcStep side p p') :
    Ready side p' := by
  cases hstep with
  | create _ => exact h.create (hn.unborn _ (Nat.le_refl _))
  | @serverLock i hside _ _ => exact h.go nofun (held_lock p i rfl) (fun _ => hside) nofun
  | serverCopy _ _ => exact h.go nofun (h.held_keep fun _ => rfl) nofun nofun
  | clientCopy hside hi =>
    exact h.go nofun (h.held_keep fun hold => by rw [hi] at hold; cases hold) nofun
      fun _ _ => hside
  | @clientLock i tid _ _ _ => exact h.go nofun (held_lock p i rfl) nofun nofun
  | draw _ => exact h.go nofun (h.held_keep fun _ => rfl) nofun nofun
  | @count i n tid _ =>
    have hgo : Ready side (p.go i (.counted { tid with i := n })) :=
      h.go nofun (h.held_keep fun _ => rfl) nofun nofun
    exact ⟨hgo.born, hgo.held, hgo.locked, hgo.copied⟩
  | unlock _ => exact h.go nofun nofun nofun nofun
  | join _ _ _ => exact ⟨h.born, h.held, h.locked, h.copied⟩

theorem Ready.exit (h : Ready side p) (hi : p.thread i = .running tid) :
    Ready side (p.go i (.exited tid)) :=
  h.go nofun (h.held_keep fun hold => by rw [hi] at hold; cases hold) nofun nofun

structure Idle (P : Session) (p : Process) : Prop where
  created : p.created = P.M
  past : ∀ i < P.M, ∃ tid, p.thread i = .running tid ∨ p.thread i = .exited tid
  joining : p.joined = P.M ∨ p.joined < P.M ∧ ∃ tid, p.thread p.joined = .running tid

theorem holder_steps (h : Ready side p) (hold : (p.thread i).holds = true) :
    ∃ p', ProcStep side p p' := by
  cases hpc : p.thread i with
  | locked => exact ⟨_, .serverCopy (h.locked i hpc) hpc⟩
  | holding tid => exact ⟨_, .draw hpc⟩
  | drawn tid n => exact ⟨_, .count hpc⟩
  | counted tid => exact ⟨_, .unlock hpc⟩
  | _ => rw [hpc] at hold; cases hold

theorem Numbered.joined_le (h : Numbered P p) : p.joined ≤ P.M := by
  by_contra hlt
  obtain ⟨tid, htid⟩ := h.joined P.M (Nat.not_le.mp hlt)
  have := h.born (i := P.M) (by rw [htid]; nofun)
  have := h.created_le
  omega

theorem process_progress (hn : Numbered P p) (h : Ready side p) :
    (∃ p', ProcStep side p p') ∨ Idle P p := by
  by_cases hmove : ∃ p', ProcStep side p p'
  · exact .inl hmove
  have hM : p.temp.M = P.M := congrArg Session.M hn.temp
  have hcreated : p.created = P.M := by
    by_contra hne
    have := hn.created_le
    exact hmove ⟨_, .create (by omega)⟩
  have hfree : p.mutex = none := by
    by_contra hsome
    obtain ⟨i, hi⟩ := Option.ne_none_iff_exists'.mp hsome
    exact hmove (holder_steps h (h.held i hi))
  have hpast : ∀ i < P.M, ∃ tid, p.thread i = .running tid ∨ p.thread i = .exited tid := by
    intro i hi
    cases hpc : p.thread i with
    | unborn => exact absurd hpc (h.born i (by omega))
    | fresh =>
      cases side with
      | server => exact absurd ⟨_, .serverLock rfl hpc hfree⟩ hmove
      | client => exact absurd ⟨_, .clientCopy rfl hpc⟩ hmove
    | copied tid => exact absurd ⟨_, .clientLock (h.copied i tid hpc) hpc hfree⟩ hmove
    | running tid => exact ⟨tid, .inl rfl⟩
    | exited tid => exact ⟨tid, .inr rfl⟩
    | _ => exact absurd (holder_steps h (i := i) (by rw [hpc]; rfl)) hmove
  refine .inr ⟨hcreated, hpast, ?_⟩
  rcases Nat.lt_or_eq_of_le hn.joined_le with hlt | heq
  · obtain ⟨tid, hrun | hexit⟩ := hpast _ hlt
    · exact .inr ⟨hlt, tid, hrun⟩
    · exact absurd ⟨_, .join (by omega) (by omega) hexit⟩ hmove
  · exact .inl heq

theorem Idle.holder (hi : Idle P p) (hn : Numbered P p) {n : ℕ} (hlt : n < P.M) :
    ∃ i tid, tid.i = n ∧ tid.toSession = P ∧
      (p.thread i = .running tid ∨ p.thread i = .exited tid) := by
  have htaken (i : ℕ) (hi' : i < P.M) : ∃ tid, (p.thread i).taken = some tid := by
    obtain ⟨tid, hrun | hexit⟩ := hi.past i hi'
    · exact ⟨tid, by rw [hrun]; rfl⟩
    · exact ⟨tid, by rw [hexit]; rfl⟩
  have hle := hn.ids.card_le (S := Finset.range P.M) fun i hi' => by
    obtain ⟨tid, htid⟩ := htaken i (Finset.mem_range.mp hi')
    exact ⟨_, id_of_taken htid⟩
  rw [Finset.card_range] at hle
  obtain ⟨i, hid⟩ := hn.ids.all n (Nat.lt_of_lt_of_le hlt hle)
  obtain ⟨tid, htid, rfl⟩ := taken_of_id hid
  refine ⟨i, tid, rfl, hn.toIds.session i tid htid, ?_⟩
  obtain ⟨t, hrun | hexit⟩ := hi.past i (hn.taken_lt htid)
  · rw [hrun] at htid
    exact .inl (Option.some.inj htid ▸ hrun)
  · rw [hexit] at htid
    exact .inr (Option.some.inj htid ▸ hexit)

end Processes

section Systems
variable {sessions : ℕ → Session} {s s' : System} {a : Party} {k n : ℕ}

structure Alive (s : System) : Prop where
  server : s.serving = true → Ready .server s.server
  client : ∀ k, s.attached k = true → Ready .client (s.client k)
  ended : ∀ k < s.session, (s.mem k).reported = true

theorem alive_boot (h : s.Boot) : Alive s where
  server hs := by rw [h.serving] at hs; cases hs
  client k hk := by rw [h.attached k] at hk; cases hk
  ended k hk := by rw [h.session] at hk; exact absurd hk (Nat.not_lt_zero k)

theorem Alive.setClient (h : Alive s) {p : Process} (hp : Ready .client p) :
    Alive { s with client := Function.update s.client k p } where
  server := h.server
  client j hj := by
    by_cases hjk : j = k
    · subst hjk
      simpa using hp
    · simpa [hjk] using h.client j hj
  ended := h.ended

theorem Alive.setMem (h : Alive s) {m : State} (hm : m.reported = (s.mem k).reported) :
    Alive { s with mem := Function.update s.mem k m } where
  server := h.server
  client := h.client
  ended j hj := by
    by_cases hjk : j = k
    · subst hjk
      simpa using hm.trans (h.ended j hj)
    · simpa [hjk] using h.ended j hj

theorem alive_step (hn : Sound sessions s) (h : Alive s) (hstep : SystemStep sessions s a s') :
    Alive s' := by
  cases hstep with
  | accept hidle =>
    refine ⟨fun _ => ready_opened _ _, h.client, fun k hk => ?_⟩
    simpa [Nat.ne_of_lt hk] using h.ended k hk
  | server hs hp => exact ⟨fun _ => ready_step (hn.server hs) (h.server hs) hp, h.client, h.ended⟩
  | serverRun _ _ hm => exact h.setMem (keeps_server hm).reported
  | serverExit hs hi _ => exact ⟨fun _ => (h.server hs).exit hi, h.client, h.ended⟩
  | finish _ _ =>
    refine ⟨nofun, h.client, fun k hk => ?_⟩
    rcases Nat.lt_succ_iff_lt_or_eq.mp hk with hlt | rfl
    · simpa [Nat.ne_of_lt hlt] using h.ended k hlt
    · simp
  | @attach k _ _ =>
    refine ⟨h.server, fun j hj => ?_, h.ended⟩
    by_cases hjk : j = k
    · subst hjk
      have hopened : Ready .client ((s.client j).opened (sessions j)) := ready_opened _ _
      simpa using hopened
    · simpa [hjk] using h.client j (by simpa [hjk] using hj)
  | client hk hp => exact h.setClient (ready_step (hn.client _ hk) (h.client _ hk) hp)
  | clientRun _ _ hm => exact h.setMem (keeps_client hm).reported
  | clientExit hk hi _ => exact h.setClient ((h.client _ hk).exit hi)
  | clientGuessed _ _ _ => exact h.setMem rfl

theorem alive_reachable (hs : (system sessions).Reachable s) : Alive s :=
  hs.invariant (fun _ h => alive_boot h) fun _ _ _ hr h hstep =>
    alive_step (sound_reachable hr) h hstep

section Blocked
variable (hs : (system sessions).Reachable s)
include hs

theorem server_idle (hserving : s.serving = true)
    (hno : ¬ (system sessions).Enabled s .server) :
    Idle (sessions s.session) s.server ∧
      ∀ n < (sessions s.session).M, serverStep (sessions s.session) (s.mem s.session) n = none := by
  have hn := (sound_reachable hs).server hserving
  rcases process_progress hn ((alive_reachable hs).server hserving) with ⟨p, hp⟩ | hidle
  · exact absurd ⟨_, .server hserving hp⟩ hno
  refine ⟨hidle, fun n hlt => ?_⟩
  obtain ⟨i, tid, rfl, hsession, hrun | hexit⟩ := hidle.holder hn hlt
  · by_contra hsome
    obtain ⟨m, hm⟩ := Option.ne_none_iff_exists'.mp hsome
    exact hno ⟨_, .serverRun hserving hrun (by rw [hsession]; exact hm)⟩
  · simp [serverStep, (follows_reachable hs).server hserving i tid hexit]

theorem client_idle (hk : s.attached k = true)
    (hno : ¬ (system sessions).Enabled s (.client k)) :
    Idle (sessions k) (s.client k) ∧
      ∀ n < (sessions k).M, clientStep (sessions k) (s.mem k) n = none := by
  have hn := (sound_reachable hs).client k hk
  rcases process_progress hn ((alive_reachable hs).client k hk) with ⟨p, hp⟩ | hidle
  · exact absurd ⟨_, .client hk hp⟩ hno
  refine ⟨hidle, fun n hlt => ?_⟩
  obtain ⟨i, tid, rfl, hsession, hrun | hexit⟩ := hidle.holder hn hlt
  · by_contra hsome
    obtain ⟨m, hm⟩ := Option.ne_none_iff_exists'.mp hsome
    exact hno ⟨_, .clientRun hk hrun (by rw [hsession]; exact hm)⟩
  · simp [clientStep, (follows_reachable hs).client k hk i tid hexit]

theorem server_joins (hserving : s.serving = true)
    (hall : ∀ n < (sessions s.session).M, (s.mem s.session).server n = .exited) :
    (system sessions).Enabled s .server := by
  by_contra hno
  have hn := (sound_reachable hs).server hserving
  obtain ⟨hidle, -⟩ := server_idle hs hserving hno
  rcases hidle.joining with hjoined | ⟨hlt, tid, hrun⟩
  · exact hno ⟨_, .finish hserving (hjoined.trans (congrArg Session.M hn.temp).symm)⟩
  · have hid := (hn.toIds.lt _ tid (by rw [hrun]; rfl)).2
    exact hno ⟨_, .serverExit hserving hrun (hall _ hid)⟩

theorem client_joins (hk : s.attached k = true) (hg : (s.mem k).guessed = false)
    (hall : ∀ n < (sessions k).M, (s.mem k).client n = .exited) :
    (system sessions).Enabled s (.client k) := by
  by_contra hno
  have hn := (sound_reachable hs).client k hk
  obtain ⟨hidle, -⟩ := client_idle hs hk hno
  rcases hidle.joining with hjoined | ⟨hlt, tid, hrun⟩
  · exact hno ⟨_, .clientGuessed hk (hjoined.trans (congrArg Session.M hn.temp).symm) hg⟩
  · have hid := (hn.toIds.lt _ tid (by rw [hrun]; rfl)).2
    exact hno ⟨_, .clientExit hk hrun (hall _ hid)⟩

theorem session_blocked (hk : s.attached k = true)
    (hserver : k = s.session → s.serving = true → ¬ (system sessions).Enabled s .server)
    (hclient : ¬ (system sessions).Enabled s (.client k)) {n : ℕ} (hn : n < (sessions k).M) :
    (s.mem k).server n = .exited ∧ ((s.mem k).client n = .exited ∨
      (s.mem k).client n = .wait ∧ ¬ (sessions k).low n < (sessions k).high n) := by
  have hacc := (follows_reachable hs).attached k hk
  have hreach := session_follows_protocol hs hacc
  refine (phase_reachable hreach n hn).blocked hn ?_ ((client_idle hs hk hclient).2 n hn)
  rcases hacc with hlt | ⟨rfl, hserving⟩
  · have hexited := (joined_reachable hreach).servers ((alive_reachable hs).ended k hlt) n hn
    simp [serverStep, hexited]
  · exact (server_idle hs hserving (hserver rfl hserving)).2 n hn

theorem session_progress (hk : s.attached k = true) :
    (k = s.session → s.serving = true →
      (system sessions).Enabled s .server ∨ (system sessions).Enabled s (.client k)) ∧
    ((sessions k).M ≤ (sessions k).N → (s.mem k).guessed = false →
      (system sessions).Enabled s (.client k) ∨
        k = s.session ∧ s.serving = true ∧ (system sessions).Enabled s .server) ∧
    ((sessions k).N < (sessions k).M → (s.mem k).guessed = false) := by
  refine ⟨fun hcur hserving => ?_, fun hle hg => ?_, fun hlt => ?_⟩
  · subst hcur
    by_contra hno
    obtain ⟨hserver, hclient⟩ := not_or.mp hno
    exact hserver (server_joins hs hserving fun n hn =>
      (session_blocked hs hk (fun _ _ => hserver) hclient hn).1)
  · by_contra hno
    obtain ⟨hclient, hserver⟩ := not_or.mp hno
    refine hclient (client_joins hs hk hg fun n hn => ?_)
    have hblocked := session_blocked hs hk (fun hcur hserving hen => hserver ⟨hcur, hserving, hen⟩)
      hclient hn
    exact hblocked.2.resolve_right fun hwait => hwait.2 ((sessions k).low_lt_high_iff.mpr hle)
  · by_contra hg
    have hreach := session_follows_protocol hs ((follows_reachable hs).attached k hk)
    have hempty : ¬ (sessions k).low 0 < (sessions k).high 0 := by
      rw [(sessions k).low_lt_high_iff]
      omega
    exact client_stays hreach (sessions k).M_pos hempty
      ((joined_reachable hreach).clients (by simpa using hg) 0 (sessions k).M_pos)

end Blocked

theorem sample_attached : ∃ s, (system fun _ => sample).Reachable s ∧ s.attached 0 = true ∧
    s.session = 0 ∧ s.serving = true := by
  have h0 : (system fun _ => sample).Reachable idleSystem :=
    .init ⟨rfl, rfl, rfl, fun _ => rfl, fun _ => rfl⟩
  have h1 := h0.step (.accept rfl)
  have h2 := h1.step (@SystemStep.attach _ _ 0 rfl (.inr ⟨rfl, rfl⟩))
  exact ⟨_, h2, rfl, rfl, rfl⟩

end Systems

section Bounded
variable {P : Session} {p p' : Process} {side : Side} {i : ℕ} {pc : ThreadPc} {tid : Args}

def ThreadPc.left : ThreadPc → ℕ
  | .unborn => 7
  | .fresh => 6
  | .locked => 5
  | .copied _ => 5
  | .holding _ => 4
  | .drawn _ _ => 3
  | .counted _ => 2
  | .running _ => 1
  | .exited _ => 0

def processLeft (P : Session) (p : Process) : ℕ :=
  (∑ i ∈ Finset.range P.M, (p.thread i).left) + (P.M - p.joined)

theorem sum_left_lt (hi : i < P.M) (hlt : pc.left < (p.thread i).left) :
    ∑ j ∈ Finset.range P.M, (Function.update p.thread i pc j).left <
      ∑ j ∈ Finset.range P.M, (p.thread j).left := by
  refine Finset.sum_lt_sum (fun j _ => ?_) ⟨i, Finset.mem_range.mpr hi, ?_⟩
  · by_cases hji : j = i
    · subst hji
      rw [Function.update_self]
      exact hlt.le
    · rw [Function.update_of_ne hji]
  · rwa [Function.update_self]

theorem Numbered.left_lt (hn : Numbered P p) (hborn : p.thread i ≠ .unborn)
    (hlt : pc.left < (p.thread i).left) : processLeft P (p.go i pc) < processLeft P p := by
  have := sum_left_lt (Nat.lt_of_lt_of_le (hn.born hborn) hn.created_le) hlt
  change _ + (P.M - p.joined) < _ + (P.M - p.joined)
  exact Nat.add_lt_add_right this _

theorem process_left (hn : Numbered P p) (hstep : ProcStep side p p') :
    processLeft P p' < processLeft P p := by
  have hM : p.temp.M = P.M := congrArg Session.M hn.temp
  have hgo {i : ℕ} {old pc : ThreadPc} (hi : p.thread i = old) (hborn : old ≠ .unborn)
      (hlt : pc.left < old.left) : processLeft P (p.go i pc) < processLeft P p := by
    subst hi
    exact hn.left_lt hborn hlt
  cases hstep with
  | create hlt =>
    have hnew : p.thread p.created = .unborn := hn.unborn _ (Nat.le_refl _)
    have hless : ThreadPc.left .fresh < (p.thread p.created).left := by rw [hnew]; decide
    have := sum_left_lt (P := P) (hM ▸ hlt) hless
    exact Nat.add_lt_add_right this _
  | serverLock _ hi _ => exact hgo hi nofun (by simp [ThreadPc.left])
  | serverCopy _ hi => exact hgo hi nofun (by simp [ThreadPc.left])
  | clientCopy _ hi => exact hgo hi nofun (by simp [ThreadPc.left])
  | clientLock _ hi _ => exact hgo hi nofun (by simp [ThreadPc.left])
  | draw hi => exact hgo hi nofun (by simp [ThreadPc.left])
  | count hi => exact hgo hi nofun (by simp [ThreadPc.left])
  | unlock hi => exact hgo hi nofun (by simp [ThreadPc.left])
  | join _ hlt _ =>
    simp only [processLeft]
    omega

theorem processLeft_opened (P : Session) (p : Process) :
    processLeft P (p.opened P) = 8 * P.M := by
  simp [processLeft, Process.opened, ThreadPc.left]
  omega

variable {sessions : ℕ → Session} {s s' : System} {a : Party} {k : ℕ}

def ofSession (k : ℕ) : System × Party × System → Bool
  | (s, .server, _) => s.session = k ∧ s.serving
  | (_, .client j, _) => j = k

def sessionLeft (sessions : ℕ → Session) (k : ℕ) (s : System) : ℕ :=
  (if s.session = k ∧ s.serving then processLeft (sessions k) s.server else 0) +
    (if s.attached k then processLeft (sessions k) (s.client k) else 8 * (sessions k).M + 1) +
    totalWork (sessions k) (s.mem k)

theorem mem_work (hs : (system sessions).Reachable s) (hk : s.Accepted k) {l : Actor} {m : State}
    (hm : (protocol (sessions k)).step (s.mem k) l m) :
    totalWork (sessions k) m < totalWork (sessions k) (s.mem k) :=
  work_decreases (phase_reachable (session_follows_protocol hs hk)) (protocol_move hm)

theorem session_left (hs : (system sessions).Reachable s) (hk : s.Accepted k)
    (hstep : SystemStep sessions s a s') : s'.Accepted k ∧
      sessionLeft sessions k s' + (if ofSession k (s, a, s') then 1 else 0) ≤
        sessionLeft sessions k s := by
  have hsound := sound_reachable hs
  have hfollows := follows_reachable hs
  have hkeep {s' : System} (hsession : s'.session = s.session) (hserving : s'.serving = s.serving) :
      s'.Accepted k := by
    rwa [System.Accepted, hsession, hserving]
  cases hstep with
  | accept hidle =>
    have hlt : k < s.session := hk.resolve_right fun h => by simp [hidle] at h
    have hne := Nat.ne_of_gt hlt
    exact ⟨.inl hlt, by simp [sessionLeft, ofSession, hne, hne.symm]⟩
  | @server p hserving hp =>
    refine ⟨hkeep rfl rfl, ?_⟩
    have hlt := process_left (hsound.server hserving) hp
    by_cases hcur : s.session = k
    · subst hcur
      simp only [sessionLeft, ofSession, hserving, and_self, if_true, decide_true]
      omega
    · simp [sessionLeft, ofSession, hcur]
  | @serverRun i tid m hserving hi hm =>
    refine ⟨hkeep rfl rfl, ?_⟩
    by_cases hcur : s.session = k
    · subst hcur
      have hids := (hsound.server hserving).toIds
      have htaken : (s.server.thread i).taken = some tid := by rw [hi]; rfl
      have hlt := mem_work hs hk (l := .server tid.i) (m := m)
        ((if_pos (hids.lt i tid htaken).2).trans (hids.session i tid htaken ▸ hm))
      simp only [sessionLeft, ofSession, hserving, and_self, if_true, decide_true,
        Function.update_self]
      omega
    · simp [sessionLeft, ofSession, hcur, Function.update_of_ne (Ne.symm hcur)]
  | @serverExit i tid hserving hi hexit =>
    refine ⟨hkeep rfl rfl, ?_⟩
    have hless : (ThreadPc.exited tid).left < (s.server.thread i).left := by
      rw [hi]
      exact Nat.zero_lt_one
    have hlt := (hsound.server hserving).left_lt (by rw [hi]; nofun) hless
    by_cases hcur : s.session = k
    · subst hcur
      simp only [sessionLeft, ofSession, hserving, and_self, if_true, decide_true]
      omega
    · simp [sessionLeft, ofSession, hcur]
  | finish hserving hjoin =>
    have hle : k ≤ s.session := hk.elim Nat.le_of_lt fun h => h.1.le
    refine ⟨.inl (Nat.lt_succ_of_le hle), ?_⟩
    by_cases hcur : s.session = k
    · subst hcur
      have hexited := exited_of_joined (fun j => (s.mem s.session).server j = .exited)
        (hsound.server hserving) hjoin (hfollows.server hserving)
      have hlt := mem_work hs hk (l := .serverMain)
        (m := { s.mem s.session with reported := true })
        (if_pos ⟨hfollows.unreported hserving, hexited⟩)
      simp only [sessionLeft, ofSession, hserving, and_self, if_true, decide_true,
        Function.update_self, Nat.succ_ne_self, false_and, if_false] at hlt ⊢
      omega
    · have hne : s.session + 1 ≠ k := by omega
      simp [sessionLeft, ofSession, hcur, hne, Function.update_of_ne (Ne.symm hcur)]
  | @attach j hfree _ =>
    refine ⟨hkeep rfl rfl, ?_⟩
    by_cases hjk : j = k
    · subst hjk
      simp only [sessionLeft, ofSession, Function.update_self, if_true, hfree, processLeft_opened,
        decide_true, Bool.false_eq_true, if_false]
      omega
    · simp [sessionLeft, ofSession, hjk, Function.update_of_ne (Ne.symm hjk)]
  | @client j p hj hp =>
    refine ⟨hkeep rfl rfl, ?_⟩
    by_cases hjk : j = k
    · subst hjk
      have hlt := process_left (hsound.client j hj) hp
      simp only [sessionLeft, ofSession, Function.update_self, if_true, hj, decide_true]
      omega
    · simp [sessionLeft, ofSession, hjk, Function.update_of_ne (Ne.symm hjk)]
  | @clientRun j i tid m hj hi hm =>
    refine ⟨hkeep rfl rfl, ?_⟩
    by_cases hjk : j = k
    · subst hjk
      have hids := (hsound.client j hj).toIds
      have htaken : ((s.client j).thread i).taken = some tid := by rw [hi]; rfl
      have hlt := mem_work hs hk (l := .client tid.i) (m := m)
        ((if_pos (hids.lt i tid htaken).2).trans (hids.session i tid htaken ▸ hm))
      simp only [sessionLeft, ofSession, Function.update_self, if_true, decide_true]
      omega
    · simp [sessionLeft, ofSession, hjk, Function.update_of_ne (Ne.symm hjk)]
  | @clientExit j i tid hj hi hexit =>
    refine ⟨hkeep rfl rfl, ?_⟩
    by_cases hjk : j = k
    · subst hjk
      have hless : (ThreadPc.exited tid).left < ((s.client j).thread i).left := by
        rw [hi]
        exact Nat.zero_lt_one
      have hlt := (hsound.client j hj).left_lt (by rw [hi]; nofun) hless
      simp only [sessionLeft, ofSession, Function.update_self, if_true, hj, decide_true]
      omega
    · simp [sessionLeft, ofSession, hjk, Function.update_of_ne (Ne.symm hjk)]
  | @clientGuessed j hj hjoin hg =>
    refine ⟨hkeep rfl rfl, ?_⟩
    by_cases hjk : j = k
    · subst hjk
      have hexited := exited_of_joined (fun i => (s.mem j).client i = .exited)
        (hsound.client j hj) hjoin (hfollows.client j hj)
      have hlt := mem_work hs hk (l := .clientMain) (m := { s.mem j with guessed := true })
        (if_pos ⟨hg, hexited⟩)
      simp only [sessionLeft, ofSession, Function.update_self, if_true, decide_true] at hlt ⊢
      omega
    · simp [sessionLeft, ofSession, hjk, Function.update_of_ne (Ne.symm hjk)]

theorem session_bounded {tr : List (Party × System)} (hs : (system sessions).Reachable s)
    (hk : s.Accepted k) (hrun : (system sessions).Run s tr) :
    (Machine.moves s tr).countP (ofSession k) ≤ sessionLeft sessions k s :=
  hrun.countP_le hs hk fun _ _ _ hr hk hstep => session_left hr hk hstep

theorem attached_step (hk : s.attached k = true) (hstep : SystemStep sessions s a s') :
    s'.attached k = true := by
  cases hstep with
  | @attach j _ _ =>
    by_cases hjk : k = j
    · subst hjk
      exact Function.update_self ..
    · exact (Function.update_of_ne hjk _ _).trans hk
  | _ => exact hk

theorem session_closer (hs : (system sessions).Reachable s) (hk : s.attached k = true)
    (hle : (sessions k).M ≤ (sessions k).N)
    (hopen : ¬ ((s.mem k).guessed = true ∧ (s.mem k).reported = true)) :
    ∃ a s', SystemStep sessions s a s' ∧ s'.attached k = true ∧
      sessionLeft sessions k s' < sessionLeft sessions k s := by
  have hacc := (follows_reachable hs).attached k hk
  obtain ⟨hserver, hclient, -⟩ := session_progress hs hk
  have hcloser {a : Party} (hof : ∀ s', ofSession k (s, a, s') = true)
      (hen : (system sessions).Enabled s a) : ∃ a s', SystemStep sessions s a s' ∧
        s'.attached k = true ∧ sessionLeft sessions k s' < sessionLeft sessions k s := by
    obtain ⟨s', hstep⟩ := hen
    have hleft := (session_left hs hacc hstep).2
    rw [hof s', if_pos rfl] at hleft
    exact ⟨a, s', hstep, attached_step hk hstep, hleft⟩
  have hofClient (s' : System) : ofSession k (s, .client k, s') = true := by simp [ofSession]
  have hofServer (hcur : k = s.session) (hserving : s.serving = true) (s' : System) :
      ofSession k (s, .server, s') = true := by simp [ofSession, hcur, hserving]
  by_cases hg : (s.mem k).guessed = true
  · rcases hacc with hlt | ⟨hcur, hserving⟩
    · exact absurd ⟨hg, (alive_reachable hs).ended k hlt⟩ hopen
    · rcases hserver hcur hserving with hen | hen
      · exact hcloser (hofServer hcur hserving) hen
      · exact hcloser hofClient hen
  · rcases hclient hle (by simpa using hg) with hen | ⟨hcur, hserving, hen⟩
    · exact hcloser hofClient hen
    · exact hcloser (hofServer hcur hserving) hen

theorem session_completes (hs : (system sessions).Reachable s) (hk : s.attached k = true)
    (hle : (sessions k).M ≤ (sessions k).N) : ∃ t, ((system sessions).started s).Reachable t ∧
      t.attached k = true ∧ (t.mem k).guessed = true ∧ (t.mem k).reported = true := by
  have h0 : ((system sessions).started s).Reachable s := .init rfl
  obtain ⟨-, t, ht, ⟨hatt, -⟩, hdone⟩ := h0.follow Nat.lt_wfRel.wf
    (G := fun n s => s.attached k = true ∧ sessionLeft sessions k s = n)
    (D := fun s => (s.mem k).guessed = true ∧ (s.mem k).reported = true)
    (fun n s' hr ⟨hk, hn⟩ hopen => by
      obtain ⟨a, s'', hstep, hk', hlt⟩ := session_closer (hs.of_started hr) hk hle hopen
      exact ⟨a, s'', _, hstep, ⟨hk', rfl⟩, hn ▸ hlt⟩) ⟨hk, rfl⟩
  exact ⟨t, ht, hatt, hdone⟩

theorem session_live (hs : (system sessions).Reachable s) (hk : s.attached k = true) :
    ((sessions k).M ≤ (sessions k).N → ¬ ((s.mem k).guessed = true ∧ (s.mem k).reported = true) →
      ∃ a s', SystemStep sessions s a s' ∧ s'.attached k = true ∧
        sessionLeft sessions k s' < sessionLeft sessions k s) ∧
    ((∃ t, ((system sessions).started s).Reachable t ∧ t.attached k = true ∧
      (t.mem k).guessed = true ∧ (t.mem k).reported = true) ↔
        (sessions k).M ≤ (sessions k).N) := by
  refine ⟨fun hle hopen => session_closer hs hk hle hopen, ?_, session_completes hs hk⟩
  rintro ⟨t, ht, hatt, hg, -⟩
  by_contra hlt
  have := (session_progress (hs.of_started ht) hatt).2.2 (Nat.not_le.mp hlt)
  rw [hg] at this
  cases this

theorem sample_live : ∃ s t, (system fun _ => sample).Reachable s ∧
    ((system fun _ => sample).started s).Reachable t ∧ (t.mem 0).guessed = true := by
  obtain ⟨s, hs, hk, -⟩ := sample_attached
  obtain ⟨t, ht, -, hg, -⟩ := (session_live hs hk).2.mpr (by decide)
  exact ⟨s, t, hs, ht, hg⟩

theorem sample_bounded : ∃ s tr, (system fun _ => sample).Run s tr ∧
    s.attached 0 = true ∧ ((Machine.last s tr).mem 0).guessed = true ∧
    ((Machine.last s tr).mem 0).reported = true ∧
    (Machine.moves s tr).countP (ofSession 0) ≤ sessionLeft (fun _ => sample) 0 s := by
  obtain ⟨s, hs, hk, hcur, hserving⟩ := sample_attached
  obtain ⟨t, ht, -, hg, hr⟩ := session_completes hs hk (by decide)
  obtain ⟨tr, hrun, rfl⟩ := Machine.exists_run ht
  exact ⟨s, tr, hrun, hk, hg, hr, session_bounded hs (.inr ⟨hcur.symm, hserving⟩) hrun⟩

end Bounded
end Guess
