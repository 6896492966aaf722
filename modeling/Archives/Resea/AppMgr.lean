import Archives.Common.FirstMatch
import Archives.Common.Machine
/-!
# Resea — joining an application

`servers/appmgr/main.c`. A `join_app` message is kept in a table of
requests and answered by the `exit_app` message of the application it
names. The table is all the server remembers: it does not keep exit
codes, and an exit answers one request. Beside the server goes the
`History` of what it was told, and the replies are compared with those
the history calls for.
-/

namespace Archives.Resea.AppMgr

open FirstMatch List Option

abbrev Cid := Nat

abbrev Pid := Nat

/-- `struct process`, as far as an exit looks at it. -/
structure Process where
  pid : Pid
  pagerCh : Cid

structure JoinRequest where
  inUse : Bool
  waiter : Cid
  target : Pid

def joinsMax : Nat := 16

/-- The server, with the replies it has sent. -/
structure Server where
  processes : List Process
  joins : List JoinRequest
  replies : List (Cid × Int)

/-- The server when it enters its loop. -/
def boot (processes : List Process) : Server where
  processes := processes
  joins := replicate joinsMax ⟨false, 0, 0⟩
  replies := []

inductive Message
  | joinApp (sender : Cid) (pid : Pid)
  | exitApp (sender : Cid) (code : Int)

/-- The request is for the exit of this application. -/
def JoinRequest.waitsFor (pid : Pid) (j : JoinRequest) : Bool := j.inUse && j.target == pid

/-- The waiters of the requests for an application, in a table. -/
def waitersFor (pid : Pid) (joins : List JoinRequest) : List Cid :=
  (joins.filter (JoinRequest.waitsFor pid)).map (·.waiter)

namespace Server

variable (s : Server)

def getProcessByCid (cid : Cid) : Option Process :=
  s.processes.find? (·.pagerCh == cid)

/-- `handle_api_join_app`. -/
def handleJoinApp (sender : Cid) (pid : Pid) : Option Server := do
  let (_, joins) ← updateFirst (!·.inUse) (fun _ => ⟨true, sender, pid⟩) s.joins
  pure { s with joins := joins }

/-- `handle_api_exit_app`. -/
def handleExitApp (sender : Cid) (code : Int) : Option Server := do
  let proc ← s.getProcessByCid sender
  let (j, joins) ← updateFirst (JoinRequest.waitsFor proc.pid) ({ · with inUse := false }) s.joins
  pure { s with joins := joins, replies := s.replies ++ [(j.waiter, code)] }

/-- `process_message`; a failed assertion ends the server. -/
def processMessage : Message → Option Server
  | .joinApp sender pid => s.handleJoinApp sender pid
  | .exitApp sender code => s.handleExitApp sender code

/-- The waiters of the requests for an application. -/
def waiting (pid : Pid) : List Cid := waitersFor pid s.joins

end Server

/-! ## What the replies should be -/

/-- What the server was told: who joined what, and what exited how. -/
structure History where
  joined : List (Cid × Pid)
  exited : List (Pid × Int)

namespace History

/-- Who joined an application. -/
def joiners (h : History) (pid : Pid) : List Cid := (h.joined.filter (·.2 == pid)).map (·.1)

/-- The exit codes the joiners are to receive. -/
def due (h : History) : List (Cid × Int) :=
  h.exited.flatMap fun e => (h.joiners e.1).map fun w => (w, e.2)

/-- The history after a message. An exit is that of the application whose
channel it comes from. -/
def add (h : History) (s : Server) : Message → History
  | .joinApp sender pid => { h with joined := h.joined ++ [(sender, pid)] }
  | .exitApp sender code =>
    { h with exited := h.exited ++ (s.getProcessByCid sender).toList.map (·.pid, code) }

def HasExited (h : History) (pid : Pid) : Prop := ∃ e ∈ h.exited, e.1 = pid
deriving Decidable

end History

/-- **The machine**, with its history. -/
def machine : Machine (Server × History) Message where
  step x m := (x.1.processMessage m).map fun s => (s, x.2.add x.1 m)

/-- **Every joiner received the exit code exactly once.** -/
def Served (x : Server × History) : Prop := x.1.replies.Perm x.2.due

/-- The exit of an application that one request waits for and that has
not exited. -/
def EndsOne (x : Server × History) (proc : Process) : Prop :=
  ¬ x.2.HasExited proc.pid ∧ x.1.waiting proc.pid ≠ []

/-- **One joiner for each application, and before its exit.** -/
def JoinedOnce (x : Server × History) : Message → Prop
  | .joinApp _ pid =>
    ¬ x.2.HasExited pid ∧ x.1.waiting pid = [] ∧ ∃ j ∈ x.1.joins, (!j.inUse) = true
  | .exitApp sender _ => ∃ proc ∈ x.1.getProcessByCid sender, EndsOne x proc

/-! ## The invariant -/

/-- The requests in the table are those of the applications still
running, and at most one for each. -/
structure Invariant (x : Server × History) : Prop where
  waiting : ∀ {pid}, ¬ x.2.HasExited pid → x.1.waiting pid = x.2.joiners pid
  gone : ∀ {pid}, x.2.HasExited pid → x.1.waiting pid = []
  one : ∀ pid, (x.1.waiting pid).length ≤ 1
  replies : x.1.replies = x.2.due

variable {x : Server × History} {s : Server} {sender : Cid} {pid : Pid} {code : Int}

theorem invariant_boot (processes : List Process) : Invariant (boot processes, ⟨[], []⟩) where
  waiting _ := rfl
  gone h := absurd h (by simp [History.HasExited])
  one _ := Nat.zero_le 1
  replies := rfl

theorem waitersFor_split (before after : List JoinRequest) (j : JoinRequest) :
    waitersFor pid (before ++ j :: after) = waitersFor pid before ++
        ((if j.waitsFor pid then [j.waiter] else []) ++ waitersFor pid after) := by
  simp only [waitersFor, filter_append, map_append, filter_cons]
  split <;> rfl

/-- A request is added to those that wait. -/
theorem waiting_of_handleJoinApp (h : x.1.handleJoinApp sender pid = some s)
    (hnone : x.1.waiting pid = []) (p : Pid) :
    s.waiting p = if p = pid then [sender] else x.1.waiting p := by
  obtain ⟨⟨j, joins⟩, hj, heq⟩ := bind_eq_some_iff.mp h
  cases heq
  obtain ⟨hfree, before, after, hold, rfl⟩ := exists_split hj
  have hunused (q : Pid) : j.waitsFor q = false := by
    simp_all [JoinRequest.waitsFor]
  rw [Server.waiting, hold, waitersFor_split, hunused] at hnone
  rw [Server.waiting, Server.waiting, hold, waitersFor_split, waitersFor_split, hunused]
  by_cases hp : p = pid
  · subst hp
    simp_all [JoinRequest.waitsFor]
  · simp [JoinRequest.waitsFor, hp, Ne.symm hp]

/-- An exit takes the request that waits for it. -/
theorem waiting_of_handleExitApp (h : x.1.handleExitApp sender code = some s)
    (hone : ∀ p, (x.1.waiting p).length ≤ 1) :
    ∃ proc w, x.1.getProcessByCid sender = some proc ∧ x.1.waiting proc.pid = [w] ∧
      s.replies = x.1.replies ++ [(w, code)] ∧
      ∀ p, s.waiting p = if p = proc.pid then [] else x.1.waiting p := by
  obtain ⟨proc, hproc, hrest⟩ := bind_eq_some_iff.mp h
  obtain ⟨⟨j, joins⟩, hj, heq⟩ := bind_eq_some_iff.mp hrest
  cases heq
  obtain ⟨hwaits, before, after, hold, rfl⟩ := exists_split hj
  have hlen := hone proc.pid
  rw [Server.waiting, hold, waitersFor_split, if_pos hwaits] at hlen
  simp only [length_append, length_cons, length_nil] at hlen
  have hbefore : waitersFor proc.pid before = [] := length_eq_zero_iff.mp (by omega)
  have hafter : waitersFor proc.pid after = [] := length_eq_zero_iff.mp (by omega)
  refine ⟨proc, j.waiter, hproc, ?_, rfl, fun p => ?_⟩
  · rw [Server.waiting, hold, waitersFor_split, if_pos hwaits, hbefore, hafter]
    rfl
  · rw [Server.waiting, Server.waiting, hold, waitersFor_split, waitersFor_split]
    by_cases hp : p = proc.pid
    · simp [hp, hbefore, hafter, JoinRequest.waitsFor]
    · have htarget : j.target = proc.pid := by simp_all [JoinRequest.waitsFor]
      simp [JoinRequest.waitsFor, htarget, hp, Ne.symm hp]

/-- **A join that is allowed keeps the invariant.** -/
theorem Invariant.join (h : Invariant x) (hok : JoinedOnce x (.joinApp sender pid))
    (hs : x.1.handleJoinApp sender pid = some s) :
    Invariant (s, x.2.add x.1 (.joinApp sender pid)) := by
  obtain ⟨hrunning, hnone, -⟩ := hok
  have hwaiting := waiting_of_handleJoinApp hs hnone
  have hjoiners (p : Pid) : (x.2.add x.1 (.joinApp sender pid)).joiners p =
      x.2.joiners p ++ if pid = p then [sender] else [] := by
    by_cases hp : pid = p <;> simp [History.add, History.joiners, filter_append, hp]
  refine ⟨fun {p} hp => ?_, fun {p} hp => ?_, fun p => ?_, ?_⟩
  · rw [hwaiting, hjoiners]
    have hold : x.1.waiting p = x.2.joiners p := h.waiting hp
    split
    next heq => rw [if_pos heq.symm, ← hold, heq, hnone, nil_append]
    next heq => rw [if_neg (Ne.symm heq), append_nil, hold]
  · have hne : p ≠ pid := fun heq => hrunning (heq ▸ hp)
    rw [hwaiting, if_neg hne, h.gone hp]
  · have hold := h.one p
    rw [hwaiting]
    split
    · exact Nat.le_refl 1
    · exact hold
  · -- nobody joins an application that has exited, so nothing more is due
    have hreplies : s.replies = x.1.replies := by
      obtain ⟨r, -, heq⟩ := bind_eq_some_iff.mp hs
      cases heq
      rfl
    show s.replies = .flatMap _ x.2.exited
    rw [hreplies, h.replies, History.due, flatMap_congr]
    intro e he
    have hne : pid ≠ e.1 := fun heq => hrunning ⟨e, he, heq.symm⟩
    rw [hjoiners, if_neg hne, append_nil]

/-- **An exit that is allowed keeps the invariant.** -/
theorem Invariant.exit (h : Invariant x) (hok : JoinedOnce x (.exitApp sender code))
    (hs : x.1.handleExitApp sender code = some s) :
    Invariant (s, x.2.add x.1 (.exitApp sender code)) := by
  obtain ⟨proc, w, hproc, hone, hreplies, hwaiting⟩ := waiting_of_handleExitApp hs h.one
  obtain ⟨proc', hproc', hrunning, -⟩ := hok
  obtain rfl : proc = proc' := Option.some.inj (hproc.symm.trans hproc')
  have hadd : x.2.add x.1 (.exitApp sender code) =
      { x.2 with exited := x.2.exited ++ [(proc.pid, code)] } := by
    rw [History.add, hproc]
    rfl
  have hexited (p : Pid) : (x.2.add x.1 (.exitApp sender code)).HasExited p ↔
      x.2.HasExited p ∨ proc.pid = p := by
    simp [hadd, History.HasExited, or_and_right, exists_or]
  refine ⟨fun {p} hp => ?_, fun {p} hp => ?_, fun p => ?_, ?_⟩
  · rw [hexited, not_or] at hp
    rw [hwaiting, if_neg (Ne.symm hp.2), h.waiting hp.1, hadd]
    rfl
  · rw [hwaiting]
    split
    next => rfl
    next hne => exact h.gone (((hexited p).mp hp).resolve_right (Ne.symm hne))
  · have hold := h.one p
    rw [hwaiting]
    split
    · exact Nat.zero_le 1
    · exact hold
  · have hjoiner : x.2.joiners proc.pid = [w] := by rw [← h.waiting hrunning, hone]
    rw [hreplies, h.replies, hadd]
    show _ = flatMap _ (x.2.exited ++ [(proc.pid, code)])
    rw [flatMap_append, flatMap_singleton]
    show _ = _ ++ (x.2.joiners proc.pid).map fun w => (w, code)
    rw [hjoiner]
    rfl

theorem Invariant.step {y : Server × History} {m : Message} (h : Invariant x)
    (hok : JoinedOnce x m) (hs : machine.step x m = some y) : Invariant y := by
  obtain ⟨s, hprocess, rfl⟩ := map_eq_some_iff.mp hs
  cases m with
  | joinApp sender pid => exact h.join hok hprocess
  | exitApp sender code => exact h.exit hok hprocess

/-- A message that is allowed is handled. -/
theorem exists_step {m : Message} (hok : JoinedOnce x m) : ∃ y, machine.step x m = some y := by
  suffices hs : ∃ s, x.1.processMessage m = some s by
    obtain ⟨s, hs⟩ := hs
    exact ⟨_, map_eq_some_iff.mpr ⟨s, hs, rfl⟩⟩
  cases m with
  | joinApp sender pid =>
    obtain ⟨r, hr⟩ := exists_updateFirst (f := fun _ => ⟨true, sender, pid⟩) hok.2.2
    exact ⟨_, by rw [Server.processMessage, Server.handleJoinApp, hr]; rfl⟩
  | exitApp sender code =>
    obtain ⟨proc, hproc, -, hwaiting⟩ := hok
    have hfound : ∃ j ∈ x.1.joins, j.waitsFor proc.pid = true := by
      obtain ⟨w, hw⟩ := exists_mem_of_ne_nil _ hwaiting
      obtain ⟨j, hj, -⟩ := mem_map.mp hw
      exact ⟨j, mem_filter.mp hj⟩
    obtain ⟨r, hr⟩ := exists_updateFirst (f := ({ · with inUse := false })) hfound
    exact ⟨_, by
      rw [Server.processMessage, Server.handleExitApp, mem_def.mp hproc, bind_eq_bind,
        bind_some, hr]
      rfl⟩

/-- **Where every application is joined once and before it exits**, every
joiner has received the exit code exactly once in every state reached,
and the server handles every such message. -/
theorem served_of_joinedOnce {processes : List Process}
    (h : machine.ReachUnder JoinedOnce (boot processes, ⟨[], []⟩) x) :
    Served x ∧ ∀ m, JoinedOnce x m → ∃ y, machine.step x m = some y := by
  have hinv : Invariant x :=
    h.invariant (invariant_boot processes) fun hx hok hs => hx.step hok hs
  exact ⟨.of_eq hinv.replies, fun m hok => exists_step hok⟩

def twoApps : Server × History := (boot [⟨5, 1⟩, ⟨6, 2⟩], ⟨[], []⟩)

instance (x : Server × History) : Decidable (Served x) :=
  inferInstanceAs (Decidable (x.1.replies.Perm x.2.due))

instance (x : Server × History) (m : Message) : Decidable (JoinedOnce x m) := by
  cases m <;> unfold JoinedOnce EndsOne <;> infer_instance

/-- Each is joined and exits. -/
theorem served_twoApps : ∃ x, machine.ReachUnder JoinedOnce twoApps x ∧
    x.1.replies = [(8, 1), (7, -1)] ∧ Served x := by
  obtain ⟨x, hx, hreplies⟩ : ∃ x, machine.ReachUnder JoinedOnce twoApps x ∧
      x.1.replies = [(8, 1), (7, -1)] :=
    Machine.exists_reachUnder [.joinApp 7 5, .joinApp 8 6, .exitApp 2 1, .exitApp 1 (-1)]
      (by decide +kernel)
  exact ⟨x, hx, hreplies, (served_of_joinedOnce hx).1⟩

/-- **An exit nobody waits for ends the server; a second joiner gets no
answer, and neither does one that comes after the exit.** -/
theorem not_served_of_joins : machine.step twoApps (.exitApp 1 0) = none ∧
    (∃ x ∈ machine.run twoApps [.joinApp 7 5, .joinApp 8 5, .exitApp 1 0], ¬ Served x) ∧
    ∃ x ∈ machine.run twoApps [.joinApp 7 5, .exitApp 1 0, .joinApp 8 5], ¬ Served x :=
  ⟨rfl, by decide +kernel, by decide +kernel⟩

end Archives.Resea.AppMgr
