import Archives.Common.FirstMatch
import Archives.Common.Machine
import Mathlib.Data.List.Forall2
/-!
# Resea — discovery

The discovery service of `servers/memmgr/main.c`. A `connect` request
waits in a table until a server for its interface is published, is then
sent to the server, and answered when a reply comes from that server's
channel. A reply is matched by the `server_ch` of the entries, which is
not reset when an entry is used again. `History` keeps what was asked
for, and `Served` matches the answers with the requests.
-/

namespace Archives.Resea.Discovery

open FirstMatch List Option Function

/-- `cid_t`; 0 is no channel. -/
abbrev Cid := Nat

structure Waiter where
  interface : Nat
  replyTo : Cid
  serverCh : Cid
  sentRequest : Bool

/-- The two tables. -/
structure Server where
  servers : List Cid
  waiters : List Waiter

/-- `discovery_init`, with what the entries hold at the start. -/
def discoveryInit : Server where
  servers := replicate 256 0
  waiters := replicate 32 ⟨0, 0, 0, false⟩

/-- The messages of the service. -/
inductive Message
  | publicize (interface : Nat) (ch : Cid)
  | connect (sender : Cid) (interface : Nat)
  | connectReply (sender ch : Cid)

/-- What was asked for, and who was answered with a channel that came from
which server. -/
structure History where
  made : List (Cid × Nat)
  answered : List (Cid × Cid)

/-- The service and its history. -/
structure State where
  server : Server
  history : History

/-- The entry waits for a reply from this channel. -/
def Waiter.expects (sender : Cid) (w : Waiter) : Bool := w.replyTo != 0 && w.serverCh == sender

def Waiter.request (w : Waiter) : Option (Cid × Nat) :=
  if w.replyTo = 0 then none else some (w.replyTo, w.interface)

namespace State

variable (s : State)

/-- `handle_discovery_publicize`. -/
def publicize (interface : Nat) (ch : Cid) : Option State :=
  if s.server.servers[interface]? = some 0 then
    some { s with server.servers := s.server.servers.set interface ch }
  else none

/-- `handle_discovery_connect`. The `server_ch` of the entry stays. Without
a free entry the answer is `ERR_OUT_OF_MEMORY`. -/
def connect (sender : Cid) (interface : Nat) : State :=
  let history := { s.history with made := s.history.made ++ [(sender, interface)] }
  match updateFirst (·.replyTo == 0)
      (fun w => ⟨interface, sender, w.serverCh, false⟩) s.server.waiters with
  | none => { s with history := history }
  | some (_, waiters) => ⟨{ s.server with waiters := waiters }, history⟩

/-- `handle_server_connect_reply`. -/
def connectReply (sender : Cid) : Option State := do
  let (w, waiters) ← updateFirst (Waiter.expects sender) ({ · with replyTo := 0 }) s.server.waiters
  pure ⟨{ s.server with waiters := waiters },
    { s.history with answered := s.history.answered ++ [(w.replyTo, sender)] }⟩

/-- `process_message`; no message comes from the channel 0. -/
def processMessage : Message → Option State
  | .publicize interface ch => if ch ≠ 0 then s.publicize interface ch else none
  | .connect sender interface => if sender ≠ 0 then some (s.connect sender interface) else none
  | .connectReply sender _ => s.connectReply sender

/-- What `deferred_work` does with an entry, at the entry's interface. -/
def sendRequest (servers : List Cid) (wouldBlock : Nat → Bool) (i : Nat) (w : Waiter) : Waiter :=
  let ch := servers[w.interface]?.getD 0
  if w.replyTo ≠ 0 ∧ ch ≠ 0 ∧ w.sentRequest = false ∧ wouldBlock i = false then
    { w with serverCh := ch, sentRequest := true }
  else w

/-- `deferred_work`, where some of the sends would block. -/
def deferredWork (wouldBlock : Nat → Bool) (s : State) : State :=
  { s with server.waiters := s.server.waiters.mapIdx (sendRequest s.server.servers wouldBlock) }

def waiting : List (Cid × Nat) := s.server.waiters.filterMap Waiter.request

end State

/-- The service before the first message. -/
def start : State := ⟨discoveryInit, ⟨[], []⟩⟩

/-- **The machine**: each message, and the deferred work after it. -/
def machine : Machine State (Message × (Nat → Bool)) where
  step s a := (s.processMessage a.1).map (State.deferredWork a.2)

/-- The answer is to the request, from a server published for its
interface. -/
def Answers (servers : List Cid) (answer : Cid × Cid) (request : Cid × Nat) : Prop :=
  answer.1 = request.1 ∧ answer.2 ≠ 0 ∧ servers[request.2]? = some answer.2

/-- **Each request waits, or was answered once and by a server for its
interface.** -/
def Served (s : State) : Prop :=
  ∃ requests, List.Forall₂ (Answers s.server.servers) s.history.answered requests ∧
    s.history.made.Perm (requests ++ s.waiting)

/-- **What becomes of a message**: a request waits, and a reply answers
exactly one waiting request, for an interface of the server it is from. -/
def Handled (s s' : State) : Message → Prop
  | .publicize interface ch => s'.server.servers = s.server.servers.set interface ch ∧
      s'.waiting = s.waiting ∧ s'.history = s.history
  | .connect sender interface => s'.server.servers = s.server.servers ∧
      s'.waiting.Perm ((sender, interface) :: s.waiting) ∧
      s'.history = { s.history with made := s.history.made ++ [(sender, interface)] }
  | .connectReply sender _ => s'.server.servers = s.server.servers ∧
      ∃ request, Answers s.server.servers (request.1, sender) request ∧
        s.waiting.Perm (request :: s'.waiting) ∧
        s'.history = { s.history with answered := s.history.answered ++ [(request.1, sender)] }

/-- **Requests for a published interface have been sent to its server**,
those apart whose send would block. -/
def Forwarded (s : State) (wouldBlock : Nat → Bool) : Prop :=
  ∀ i w ch, s.server.waiters[i]? = some w → w.replyTo ≠ 0 →
    s.server.servers[w.interface]? = some ch → ch ≠ 0 → wouldBlock i = false →
      w.sentRequest = true ∧ w.serverCh = ch

/-- **A reply comes while the first entry that expects it has been sent to
that server**, an interface is published once, and there is an entry for
each request. -/
def Solicited (s : State) (a : Message × (Nat → Bool)) : Prop :=
  match a.1 with
  | .publicize interface ch => ch ≠ 0 ∧ s.server.servers[interface]? = some 0
  | .connect sender _ => sender ≠ 0 ∧ ∃ w ∈ s.server.waiters, w.replyTo = 0
  | .connectReply sender _ =>
    ∃ w ∈ s.server.waiters.find? (Waiter.expects sender), w.sentRequest = true

/-- What was sent went to the server for the interface. -/
def SentRightly (s : State) : Prop :=
  ∀ w ∈ s.server.waiters, w.replyTo ≠ 0 → w.sentRequest = true →
    w.serverCh ≠ 0 ∧ s.server.servers[w.interface]? = some w.serverCh

variable {s s' : State} {m : Message} {wouldBlock : Nat → Bool}

/-- An entry of a server stays when another is published. -/
theorem getElem?_set_servers {servers : List Cid} {ch d : Cid} {i j : Nat}
    (h : servers[i]? = some 0) (hd : d ≠ 0) (hj : servers[j]? = some d) :
    (servers.set i ch)[j]? = some d := by
  have hne : i ≠ j := fun heq => hd (by simp_all)
  rw [getElem?_set_ne hne, hj]

/-- An entry is replaced by one that is free or not sent. -/
theorem SentRightly.replace {w w' : Waiter} {rest : List Waiter} (h : SentRightly s)
    (hold : s.server.waiters.Perm (w :: rest)) (hnew : s'.server.waiters.Perm (w' :: rest))
    (hservers : s'.server.servers = s.server.servers)
    (hw' : w'.replyTo ≠ 0 → w'.sentRequest = false) : SentRightly s' := by
  intro v hv huse hsent
  rcases mem_cons.mp (hnew.mem_iff.mp hv) with rfl | hv
  · cases (hw' huse).symm.trans hsent
  · rw [hservers]
    exact h v (hold.mem_iff.mpr (mem_cons_of_mem _ hv)) huse hsent

/-- **A solicited message is handled**, and what was sent stays right. -/
theorem exists_process (h : SentRightly s) (hok : Solicited s (m, wouldBlock)) :
    ∃ s', s.processMessage m = some s' ∧ Handled s s' m ∧ SentRightly s' := by
  cases m with
  | publicize interface ch =>
    refine ⟨_, (if_pos hok.1).trans (if_pos hok.2), ⟨rfl, rfl, rfl⟩, fun w hw huse hsent => ?_⟩
    obtain ⟨hne, hserver⟩ := h w hw huse hsent
    exact ⟨hne, getElem?_set_servers hok.2 hne hserver⟩
  | connect sender interface =>
    obtain ⟨hsender, v, hv, hfree⟩ := hok
    obtain ⟨⟨w, waiters⟩, hw⟩ := exists_updateFirst (p := fun w : Waiter => w.replyTo == 0)
      (f := fun w => ⟨interface, sender, w.serverCh, false⟩) ⟨v, hv, beq_iff_eq.mpr hfree⟩
    obtain ⟨rest, hold, hnew⟩ := exists_perm hw
    have hunused : w.replyTo = 0 := beq_iff_eq.mp (exists_split hw).1
    refine ⟨_, if_pos hsender, ?_⟩
    simp only [State.connect, hw]
    refine ⟨⟨rfl, ?_, rfl⟩, h.replace hold hnew rfl fun _ => rfl⟩
    refine (hnew.filterMap Waiter.request).trans (.trans ?_ ((hold.filterMap _).symm.cons _))
    simp [Waiter.request, hunused, hsender]
  | connectReply sender ch =>
    obtain ⟨w, hfound, hsent⟩ := hok
    rw [← map_fst_updateFirst _ ({ · with replyTo := 0 })] at hfound
    obtain ⟨⟨w, waiters⟩, hw, rfl⟩ := map_eq_some_iff.mp hfound
    obtain ⟨rest, hold, hnew⟩ := exists_perm hw
    obtain ⟨huse, rfl⟩ : w.replyTo ≠ 0 ∧ w.serverCh = sender := by
      simpa [Waiter.expects] using (exists_split hw).1
    have hserver := h w (hold.mem_iff.mpr mem_cons_self) huse hsent
    refine ⟨_, bind_eq_some_iff.mpr ⟨_, hw, rfl⟩,
      ⟨rfl, (w.replyTo, w.interface), ⟨rfl, hserver⟩, ?_, rfl⟩,
      h.replace hold hnew rfl fun hne => absurd rfl hne⟩
    refine (hold.filterMap Waiter.request).trans (.trans ?_ ((hnew.filterMap _).symm.cons _))
    simp [Waiter.request, huse]

theorem request_sendRequest (servers : List Cid) (wouldBlock : Nat → Bool) (i : Nat) (w : Waiter) :
    (State.sendRequest servers wouldBlock i w).request = w.request := by
  unfold State.sendRequest
  dsimp only
  split <;> rfl

theorem waiting_deferredWork : (s.deferredWork wouldBlock).waiting = s.waiting := by
  simp only [State.waiting, State.deferredWork, mapIdx_eq_zipIdx_map, filterMap_map,
    comp_def, request_sendRequest]
  rw [← comp_def Waiter.request Prod.fst, ← filterMap_map, zipIdx_map_fst]

theorem Handled.deferredWork (h : Handled s s' m) : Handled s (s'.deferredWork wouldBlock) m := by
  cases m <;> simp only [Handled, waiting_deferredWork] <;> exact h

theorem SentRightly.deferredWork (h : SentRightly s) :
    SentRightly (s.deferredWork wouldBlock) := by
  intro w hw
  obtain ⟨i, hi, rfl⟩ := mem_mapIdx.mp hw
  unfold State.sendRequest
  dsimp only
  split
  next hsend =>
    intro _ _
    obtain ⟨ch, hch⟩ := ne_none_iff_exists'.mp (fun hnone => hsend.2.1 (by rw [hnone]; rfl) :
      s.server.servers[s.server.waiters[i].interface]? ≠ none)
    exact ⟨hsend.2.1, by simp [State.deferredWork, hch]⟩
  next => exact h _ (getElem_mem hi)

theorem SentRightly.forwarded (h : SentRightly s) :
    Forwarded (s.deferredWork wouldBlock) wouldBlock := by
  intro i w ch hw huse hch hne hblock
  have hsent : w.sentRequest = true := by
    simp only [State.deferredWork, getElem?_mapIdx] at hw
    obtain ⟨v, -, rfl⟩ := map_eq_some_iff.mp hw
    revert huse hch
    unfold State.sendRequest
    dsimp only [State.deferredWork]
    split
    next => exact fun _ _ => rfl
    next hnot =>
      intro huse hch
      by_contra hsent
      exact hnot ⟨huse, by rwa [hch], by simpa using hsent, hblock⟩
  obtain ⟨-, hserver⟩ := h.deferredWork w (mem_of_getElem? hw) huse hsent
  exact ⟨hsent, some.inj (hserver.symm.trans hch)⟩

theorem exists_step (h : SentRightly s) (hok : Solicited s (m, wouldBlock)) :
    ∃ s', machine.step s (m, wouldBlock) = some s' ∧ Handled s s' m ∧ SentRightly s' ∧
      Forwarded s' wouldBlock := by
  obtain ⟨s₁, hs₁, hhandled, hright⟩ := exists_process h hok
  exact ⟨_, map_eq_some_iff.mpr ⟨s₁, hs₁, rfl⟩, hhandled.deferredWork, hright.deferredWork,
    hright.forwarded⟩

/-- A message after which no send blocks. -/
def sent (m : Message) : Message × (Nat → Bool) := (m, fun _ => false)

instance (s : State) (a : Message × (Nat → Bool)) : Decidable (Solicited s a) := by
  obtain ⟨m, _⟩ := a
  cases m <;> unfold Solicited <;> infer_instance

end Archives.Resea.Discovery
