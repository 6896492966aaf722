import Archives.Common.PartialMap
import Archives.Ftl.Model.TcpServer
/-!
# FTL — listening sockets of the TCP/IP server

A listening socket is used up by the connection it accepts, and the
server opens the next one only after it has passed the connection on to
the client. The account of `Good` follows the changes of one poll: the
sockets still to be handled (`todo`) and the channel whose next socket
is not open yet (`owed`). If every accept is passed on, the account is
even after each poll, and every client is served (`served_of_passesOn`).
If a connection cannot be passed on, the client's last socket is closed,
and with it the listen channel leaves the event loop.
-/

namespace Archives.Ftl.Tcpip.Server

open PartialMap List Option Function Server

variable {s s' : Server} {todo rest : List (SocketHandle × Change)} {owed : Option HandleId}
  {handle : SocketHandle} {ch : HandleId} {endpoint : Endpoint} {drain : DrainResult}

/-- **The account of the server** in the middle of a poll: the changes to
come, and the listen channel whose next socket is not open yet. -/
structure Good (s : Server) (todo : List (SocketHandle × Change)) (owed : Option HandleId) :
    Prop where
  socket : ∀ handle pcb, s.pcbs handle = some pcb → (s.sockets handle).isSome
  conn : ∀ handle ch, s.pcbs handle = some (.tcpConn ch) → s.items ch = some (.tcpConn handle)
  item : ∀ handle ch, s.items ch = some (.tcpConn handle) → s.pcbs handle = some (.tcpConn ch)
  listen : ∀ handle ch endpoint, s.pcbs handle = some (.tcpListen ch endpoint) →
    s.items ch = some .tcpListen
  unique : ∀ handle handle' ch endpoint endpoint', s.pcbs handle = some (.tcpListen ch endpoint) →
    s.pcbs handle' = some (.tcpListen ch endpoint') → handle = handle'
  registered : ∀ ch client, s.clients ch = some client → s.items ch = some .tcpListen
  served : ∀ ch client, s.clients ch = some client → owed ≠ some ch →
    ∃ handle, s.pcbs handle = some (.tcpListen ch client.endpoint) ∧
      (s.sockets handle = some (.listening client.endpoint) ∨
        ∃ grant, (handle, Change.accepted grant) ∈ todo)
  active : ∀ change ∈ todo, s.sockets change.1 = some .active
  nodup : (todo.map Prod.fst).Nodup
  passedOn : ∀ handle grant ch endpoint client, (handle, Change.accepted grant) ∈ todo →
    s.pcbs handle = some (.tcpListen ch endpoint) → s.clients ch = some client →
    grant.channel.isSome ∧ grant.reserve = true ∧ client.queued < queueLenMax

/-- The account is about sockets, control blocks, items and clients. -/
theorem Good.of_eq (hg : s.Good todo owed) (hsockets : s'.sockets = s.sockets)
    (hpcbs : s'.pcbs = s.pcbs) (hitems : s'.items = s.items) (hclients : s'.clients = s.clients) :
    s'.Good todo owed := by
  cases s'
  subst hsockets hpcbs hitems hclients
  exact ⟨hg.socket, hg.conn, hg.item, hg.listen, hg.unique, hg.registered, hg.served, hg.active,
    hg.nodup, hg.passedOn⟩

variable {client : Client}

/-- With an even account every client has a socket that listens. -/
theorem Good.listening (hg : s.Good [] none) (hclient : s.clients ch = some client) :
    ∃ handle, s.sockets handle = some (.listening client.endpoint) ∧
      s.pcbs handle = some (.tcpListen ch client.endpoint) := by
  obtain ⟨handle, hpcb, hsocket | ⟨grant, hgrant⟩⟩ := hg.served ch client hclient nofun
  · exact ⟨handle, hsocket, hpcb⟩
  · cases hgrant

/-- With an even account every client is served. -/
theorem Good.served_all (hg : s.Good [] none) : s.Served := by
  intro ch client hclient
  obtain ⟨handle, hsocket, hpcb⟩ := hg.listening hclient
  refine ⟨⟨handle, ⟨hsocket, hpcb⟩, ?_⟩, hg.registered ch client hclient⟩
  rintro handle' ⟨-, hpcb'⟩
  exact hg.unique handle' handle ch _ _ hpcb' hpcb

/-! ## The event loop and the stack -/

theorem addChannel_eq_some {ctx : Context} : s.addChannel ch ctx = some s' ↔
    s.items ch = none ∧ { s with items := update s.items ch (some ctx) } = s' := by
  unfold addChannel
  cases s.items ch <;> simp

theorem removeItem_eq_some : s.removeItem ch = some s' ↔
    (s.items ch).isSome ∧ { s with items := update s.items ch none } = s' := by
  unfold removeItem
  cases s.items ch <;> simp

theorem tcpClose_eq_some : s.tcpClose handle = some s' ↔ (s.sockets handle).isSome ∧
    { s with sockets := update s.sockets handle (some .active) } = s' := by
  unfold tcpClose
  cases s.sockets handle <;> simp

theorem tcpListen_eq_some : s.tcpListen endpoint handle = some s' ↔
    endpoint ≠ 0 ∧ s.sockets handle = none ∧
      { s with sockets := update s.sockets handle (some (.listening endpoint)) } = s' := by
  unfold tcpListen
  by_cases hport : endpoint = 0
  · simp [hport]
  · cases s.sockets handle <;> simp [hport]

/-- Whether an item is in the event loop is all that `listen` looks at. -/
theorem eq_of_listen (h : s.listen ch = some s') : s' = s := by
  unfold listen at h
  split at h
  · exact (some.inj h).symm
  · cases h

theorem eq_of_drainSocketToCh (h : s.drainSocketToCh ch drain = some s') : s' = s := by
  cases drain with
  | ok => exact (some.inj h).symm
  | backpressure => exact eq_of_listen h

/-- An item that no control block is about comes in. -/
theorem Good.addChannel (hg : s.Good todo owed) {ctx : Context}
    (hctx : ∀ handle, ctx ≠ .tcpConn handle) (h : s.addChannel ch ctx = some s') :
    s'.Good todo owed := by
  obtain ⟨hlacking, rfl⟩ := addChannel_eq_some.1 h
  refine ⟨hg.socket, ?_, ?_, ?_, hg.unique, ?_, hg.served, hg.active, hg.nodup, hg.passedOn⟩
  · exact fun handle ch' hpcb => update_of_lacking hlacking (hg.conn handle ch' hpcb)
  · intro handle ch' hitem
    obtain ⟨-, hitem⟩ := of_update hitem fun heq => hctx handle (some.inj heq)
    exact hg.item handle ch' hitem
  · exact fun handle ch' endpoint hpcb =>
      update_of_lacking hlacking (hg.listen handle ch' endpoint hpcb)
  · exact fun ch' client hclient => update_of_lacking hlacking (hg.registered ch' client hclient)

/-- An item that no control block is about goes. -/
theorem Good.removeItem (hg : s.Good todo owed)
    (hconn : ∀ handle, s.items ch ≠ some (.tcpConn handle)) (hlisten : s.items ch ≠ some .tcpListen)
    (h : s.removeItem ch = some s') : s'.Good todo owed := by
  obtain ⟨-, rfl⟩ := removeItem_eq_some.1 h
  refine ⟨hg.socket, ?_, ?_, ?_, hg.unique, ?_, hg.served, hg.active, hg.nodup, hg.passedOn⟩
  · exact fun handle ch' hpcb => update_of_other (hconn handle) (hg.conn handle ch' hpcb)
  · exact fun handle ch' hitem => hg.item handle ch' (of_update hitem nofun).2
  · exact fun handle ch' endpoint hpcb =>
      update_of_other hlisten (hg.listen handle ch' endpoint hpcb)
  · exact fun ch' client hclient => update_of_other hlisten (hg.registered ch' client hclient)

/-- No client listens with the socket. -/
def Idle (s : Server) (handle : SocketHandle) : Prop :=
  ∀ ch endpoint, s.pcbs handle = some (.tcpListen ch endpoint) → s.clients ch = none

theorem idle_of_conn (hpcb : s.pcbs handle = some (.tcpConn ch)) : s.Idle handle := by
  intro ch' endpoint hpcb'
  cases hpcb.symm.trans hpcb'

/-- A socket is closed that no client listens with. -/
theorem Good.tcpClose (hg : s.Good todo owed) (hnot : s.Idle handle)
    (h : s.tcpClose handle = some s') : s'.Good todo owed := by
  obtain ⟨-, rfl⟩ := tcpClose_eq_some.1 h
  refine ⟨?_, hg.conn, hg.item, hg.listen, hg.unique, hg.registered, ?_, ?_, hg.nodup, hg.passedOn⟩
  · exact fun handle' pcb hpcb => isSome_update rfl (hg.socket handle' pcb hpcb)
  · intro ch client hclient howed
    obtain ⟨handle', hpcb, hlistening⟩ := hg.served ch client hclient howed
    have hne : handle' ≠ handle := by
      rintro rfl
      rw [hnot ch _ hpcb] at hclient
      cases hclient
    refine ⟨handle', hpcb, hlistening.imp_left ?_⟩
    exact fun hsocket => update_eq_some.2 (.inr ⟨hne, hsocket⟩)
  · intro change hchange
    by_cases heq : change.1 = handle
    · exact update_eq_some.2 (.inl ⟨heq, rfl⟩)
    · exact update_eq_some.2 (.inr ⟨heq, hg.active change hchange⟩)

/-- **The next socket of a listen channel is opened**: a slot that is
free has no control block, so nothing else changes. -/
theorem Good.relisten (hg : s.Good todo (some ch))
    (hnone : ∀ handle endpoint, s.pcbs handle ≠ some (.tcpListen ch endpoint))
    (hitem : s.items ch = some .tcpListen)
    (hclient : ∀ client, s.clients ch = some client → client.endpoint = endpoint)
    (h : s.tcpListen endpoint handle = some s') :
    ({ s' with pcbs := update s'.pcbs handle (some (.tcpListen ch endpoint)) } :
      Server).Good todo none := by
  obtain ⟨-, hfree, rfl⟩ := tcpListen_eq_some.1 h
  have hpcb : s.pcbs handle = none := by
    cases hpcb : s.pcbs handle with
    | none => rfl
    | some pcb =>
      have hsome := hg.socket handle pcb hpcb
      rw [hfree] at hsome
      cases hsome
  refine ⟨?_, ?_, ?_, ?_, ?_, hg.registered, ?_, ?_, hg.nodup, ?_⟩
  · intro handle' pcb hpcb'
    by_cases heq : handle' = handle
    · subst heq
      simp
    · rcases update_eq_some.1 hpcb' with ⟨heq', -⟩ | ⟨-, hpcb'⟩
      · exact absurd heq' heq
      · exact isSome_update rfl (hg.socket handle' pcb hpcb')
  · exact fun handle' ch' hpcb' => hg.conn handle' ch' (of_update hpcb' nofun).2
  · exact fun handle' ch' hitem' => update_of_lacking hpcb (hg.item handle' ch' hitem')
  · intro handle' ch' endpoint' hpcb'
    rcases update_eq_some.1 hpcb' with ⟨-, heq⟩ | ⟨-, hpcb'⟩
    · cases heq
      exact hitem
    · exact hg.listen handle' ch' endpoint' hpcb'
  · intro handle₁ handle₂ ch' endpoint₁ endpoint₂ h₁ h₂
    rcases update_eq_some.1 h₁ with ⟨rfl, heq₁⟩ | ⟨-, h₁⟩
    · rcases update_eq_some.1 h₂ with ⟨rfl, -⟩ | ⟨-, h₂⟩
      · rfl
      · cases heq₁
        exact absurd h₂ (hnone handle₂ endpoint₂)
    · rcases update_eq_some.1 h₂ with ⟨rfl, heq₂⟩ | ⟨-, h₂⟩
      · cases heq₂
        exact absurd h₁ (hnone handle₁ endpoint₁)
      · exact hg.unique handle₁ handle₂ ch' endpoint₁ endpoint₂ h₁ h₂
  · intro ch' client hclient' _
    by_cases heq : ch' = ch
    · subst heq
      obtain rfl := hclient client hclient'
      exact ⟨handle, update_eq_some.2 (.inl ⟨rfl, rfl⟩), .inl (update_eq_some.2 (.inl ⟨rfl, rfl⟩))⟩
    · obtain ⟨handle', hpcb', hlistening⟩ :=
        hg.served ch' client hclient' fun h => heq (some.inj h).symm
      exact ⟨handle', update_of_lacking hpcb hpcb',
        hlistening.imp_left fun hsocket => update_of_lacking hfree hsocket⟩
  · exact fun change hchange => update_of_lacking hfree (hg.active change hchange)
  · intro handle' grant ch' endpoint' client hmem hpcb' hclient'
    rcases update_eq_some.1 hpcb' with ⟨rfl, -⟩ | ⟨-, hpcb'⟩
    · have hactive := hg.active _ hmem
      rw [hfree] at hactive
      cases hactive
    · exact hg.passedOn handle' grant ch' endpoint' client hmem hpcb' hclient'

/-! ## Changes -/

section

variable {change : Change} (hg : s.Good ((handle, change) :: rest) none)

include hg

/-- No other change is for the same socket. -/
theorem Good.ne_of_mem {change' : SocketHandle × Change} (h : change' ∈ rest) :
    change'.1 ≠ handle := by
  intro heq
  have hmem : handle ∈ rest.map Prod.fst := heq ▸ mem_map_of_mem h
  exact (nodup_cons.1 hg.nodup).1 hmem

/-- A change that is no accept is not what a client waits for. -/
theorem Good.served_tail (hnot : s.Idle handle) :
    ∀ ch client, s.clients ch = some client → ∃ handle',
      s.pcbs handle' = some (.tcpListen ch client.endpoint) ∧
      (s.sockets handle' = some (.listening client.endpoint) ∨
        ∃ grant, (handle', .accepted grant) ∈ rest) := by
  intro ch client hclient
  obtain ⟨handle', hpcb, hlistening⟩ := hg.served ch client hclient (by simp)
  refine ⟨handle', hpcb, hlistening.imp_right ?_⟩
  rintro ⟨grant, hgrant⟩
  refine ⟨grant, (mem_cons.1 hgrant).resolve_left ?_⟩
  rintro heq
  cases heq
  rw [hnot ch _ hpcb] at hclient
  cases hclient

/-- A change is done that leaves everything as it is. -/
theorem Good.tail (hnot : s.Idle handle) : s.Good rest none where
  socket := hg.socket
  conn := hg.conn
  item := hg.item
  listen := hg.listen
  unique := hg.unique
  registered := hg.registered
  served := fun ch client hclient _ => hg.served_tail hnot ch client hclient
  active := fun change hchange => hg.active change (mem_cons_of_mem _ hchange)
  nodup := (nodup_cons.1 hg.nodup).2
  passedOn := fun handle' grant ch endpoint client hmem =>
    hg.passedOn handle' grant ch endpoint client (mem_cons_of_mem _ hmem)

/-- A client that listens with a socket for which the stack has reported
something waits for the accept of this socket. -/
theorem Good.accepted_of_client
    (hpcb : s.pcbs handle = some (.tcpListen ch endpoint)) (hclient : s.clients ch = some client) :
    client.endpoint = endpoint ∧ ∃ grant, change = .accepted grant := by
  obtain ⟨handle', hpcb', hlistening⟩ := hg.served ch client hclient (by simp)
  obtain rfl := hg.unique handle' handle ch _ _ hpcb' hpcb
  rw [hpcb] at hpcb'
  refine ⟨(Pcb.tcpListen.inj (some.inj hpcb')).2.symm, ?_⟩
  rcases hlistening with hsocket | ⟨grant, hgrant⟩
  · have hactive := hg.active _ mem_cons_self
    rw [hactive] at hsocket
    cases hsocket
  · rcases mem_cons.1 hgrant with heq | hgrant
    · exact ⟨grant, (Prod.mk.inj heq).2.symm⟩
    · exact absurd rfl (hg.ne_of_mem hgrant)

/-- **A socket is given up.** -/
theorem Good.closed (hchange : ∀ grant, change ≠ .accepted grant)
    (hpcb : s.pcbs handle = some (.tcpConn ch) ∨
      ∃ endpoint, s.pcbs handle = some (.tcpListen ch endpoint))
    (h : s.onTcpClosed handle ch = some s') : s'.Good rest none := by
  have hnot : s.Idle handle := by
    intro ch endpoint hpcb
    by_contra hsome
    obtain ⟨client, hclient⟩ := ne_none_iff_exists'.1 hsome
    obtain ⟨-, grant, heq⟩ := hg.accepted_of_client hpcb hclient
    exact hchange grant heq
  have htail := hg.tail hnot
  obtain ⟨s₁, hremove, hlast⟩ := bind_eq_some_iff.1 h
  obtain ⟨-, rfl⟩ := removeItem_eq_some.1 hremove
  cases hlast
  -- the channel is that of this socket only
  have hconn : ∀ handle', s.items ch = some (.tcpConn handle') → handle' = handle := by
    intro handle' hitem
    rcases hpcb with hpcb | ⟨endpoint, hpcb⟩
    · have hitem' := hg.conn handle ch hpcb
      rw [hitem] at hitem'
      cases hitem'
      rfl
    · rw [hg.listen handle ch endpoint hpcb] at hitem
      cases hitem
  refine ⟨?_, ?_, ?_, ?_, ?_, ?_, ?_, ?_, htail.nodup, ?_⟩
  · intro handle' pcb hpcb'
    obtain ⟨hne, hpcb'⟩ := of_update hpcb' nofun
    simpa only [update_of_ne hne] using hg.socket handle' pcb hpcb'
  · intro handle' ch' hpcb'
    obtain ⟨hne, hpcb'⟩ := of_update hpcb' nofun
    exact update_of_other (fun hitem => hne (hconn handle' hitem)) (hg.conn handle' ch' hpcb')
  · intro handle' ch' hitem
    obtain ⟨hne, hitem⟩ := of_update hitem nofun
    refine update_of_other (fun heq => ?_) (hg.item handle' ch' hitem)
    rcases hpcb with hpcb | ⟨endpoint, hpcb⟩
    · cases hpcb.symm.trans heq
      exact hne rfl
    · cases hpcb.symm.trans heq
  · intro handle' ch' endpoint' hpcb'
    obtain ⟨hne, hold⟩ := of_update hpcb' nofun
    have hitem := hg.listen handle' ch' endpoint' hold
    refine update_eq_some.2 (.inr ⟨?_, hitem⟩)
    rintro rfl
    rcases hpcb with hpcb | ⟨endpoint, hpcb⟩
    · cases hitem.symm.trans (hg.conn handle ch' hpcb)
    · exact hne (hg.unique handle' handle ch' _ _ hold hpcb)
  · intro handle₁ handle₂ ch' endpoint₁ endpoint₂ h₁ h₂
    exact hg.unique handle₁ handle₂ ch' endpoint₁ endpoint₂ (of_update h₁ nofun).2
      (of_update h₂ nofun).2
  · intro ch' client hclient
    have hitem := hg.registered ch' client hclient
    refine update_eq_some.2 (.inr ⟨?_, hitem⟩)
    rintro rfl
    rcases hpcb with hpcb | ⟨endpoint, hpcb⟩
    · cases hitem.symm.trans (hg.conn handle ch' hpcb)
    · cases hclient.symm.trans (hnot ch' endpoint hpcb)
  · intro ch' client hclient _
    obtain ⟨handle', hpcb', hlistening⟩ := htail.served ch' client hclient (by simp)
    have hne : handle' ≠ handle := by
      rintro rfl
      cases hclient.symm.trans (hnot ch' _ hpcb')
    exact ⟨handle', update_eq_some.2 (.inr ⟨hne, hpcb'⟩),
      hlistening.imp_left fun hsocket => update_eq_some.2 (.inr ⟨hne, hsocket⟩)⟩
  · intro change hchange
    exact update_eq_some.2 (.inr ⟨hg.ne_of_mem hchange, htail.active change hchange⟩)
  · intro handle' grant ch' endpoint' client hmem hpcb' hclient
    exact htail.passedOn handle' grant ch' endpoint' client hmem (of_update hpcb' nofun).2 hclient

/-- A connection was passed on: its socket belongs to the new channel,
and the listen channel has none until the next is opened. -/
theorem Good.connected {ourCh : HandleId}
    (hpcb : s.pcbs handle = some (.tcpListen ch endpoint)) (hclient : s.clients ch = some client)
    (hlacking : s.items ourCh = none) : ({ s with
      clients := update s.clients ch (some { client with queued := client.queued + 1 })
      pcbs := update s.pcbs handle (some (.tcpConn ourCh))
      items := update s.items ourCh (some (.tcpConn handle)) } : Server).Good rest (some ch) := by
  -- another socket with a listen channel has another channel
  have hother : ∀ {handle' ch' endpoint'}, handle' ≠ handle →
      s.pcbs handle' = some (.tcpListen ch' endpoint') → ch' ≠ ch := by
    rintro handle' ch' endpoint' hne hpcb' rfl
    exact hne (hg.unique handle' handle ch' _ _ hpcb' hpcb)
  refine ⟨?_, ?_, ?_, ?_, ?_, ?_, ?_, ?_, (nodup_cons.1 hg.nodup).2, ?_⟩
  · intro handle' pcb hpcb'
    rcases update_eq_some.1 hpcb' with ⟨heq, -⟩ | ⟨-, hold⟩
    · exact hg.socket handle' _ (heq ▸ hpcb)
    · exact hg.socket handle' pcb hold
  · intro handle' ch' hpcb'
    rcases update_eq_some.1 hpcb' with ⟨heq, hnew⟩ | ⟨-, hold⟩
    · cases hnew
      exact update_eq_some.2 (Or.inl ⟨rfl, by rw [heq]⟩)
    · exact update_of_lacking hlacking (hg.conn handle' ch' hold)
  · intro handle' ch' hitem
    rcases update_eq_some.1 hitem with ⟨heq, hnew⟩ | ⟨-, hold⟩
    · cases hnew
      exact update_eq_some.2 (Or.inl ⟨rfl, by rw [heq]⟩)
    · refine update_of_other ?_ (hg.item handle' ch' hold)
      rw [hpcb]
      simp
  · intro handle' ch' endpoint' hpcb'
    obtain ⟨-, hold⟩ := of_update hpcb' nofun
    exact update_of_lacking hlacking (hg.listen handle' ch' endpoint' hold)
  · intro handle₁ handle₂ ch' endpoint₁ endpoint₂ h₁ h₂
    exact hg.unique handle₁ handle₂ ch' endpoint₁ endpoint₂ (of_update h₁ nofun).2
      (of_update h₂ nofun).2
  · intro ch' client' hclient'
    refine update_of_lacking hlacking ?_
    rcases update_eq_some.1 hclient' with ⟨heq, -⟩ | ⟨-, hold⟩
    · exact hg.registered ch' client (heq ▸ hclient)
    · exact hg.registered ch' client' hold
  · intro ch' client' hclient' howed
    rcases update_eq_some.1 hclient' with ⟨heq, -⟩ | ⟨hne, hold⟩
    · exact absurd (congrArg some heq.symm) howed
    · obtain ⟨handle', hpcb', hlistening⟩ := hg.served ch' client' hold (by simp)
      have hne' : handle' ≠ handle := by
        rintro rfl
        rw [hpcb] at hpcb'
        cases hpcb'
        exact hne rfl
      refine ⟨handle', update_eq_some.2 (.inr ⟨hne', hpcb'⟩), hlistening.imp_right ?_⟩
      rintro ⟨grant, hgrant⟩
      refine ⟨grant, (mem_cons.1 hgrant).resolve_left ?_⟩
      intro heq
      exact hne' (Prod.mk.inj heq).1
  · exact fun change' hchange => hg.active change' (mem_cons_of_mem _ hchange)
  · intro handle' grant ch' endpoint' client' hmem hpcb' hclient'
    have hne := hg.ne_of_mem hmem
    obtain ⟨-, hold⟩ := of_update hpcb' nofun
    rcases update_eq_some.1 hclient' with ⟨heq, -⟩ | ⟨-, hclient'⟩
    · exact absurd heq (hother hne hold)
    · exact hg.passedOn handle' grant ch' endpoint' client' (mem_cons_of_mem _ hmem) hold hclient'

end

/-- **A connection is accepted.** If the client keeps its listen channel,
the connection is passed on and the next socket opened; otherwise the
socket is closed. -/
theorem Good.accepted {grant : Grant} (hg : s.Good ((handle, .accepted grant) :: rest) none)
    (hpcb : s.pcbs handle = some (.tcpListen ch endpoint))
    (h : s.onTcpAccept handle ch endpoint grant = some s') : s'.Good rest none := by
  cases hclient : s.clients ch with
  | none =>
    have hnot : s.Idle handle := by
      intro ch' endpoint' hpcb'
      rw [hpcb] at hpcb'
      cases hpcb'
      exact hclient
    have htail := hg.tail hnot
    simp only [onTcpAccept, sendConnect, hclient] at h
    split at h
    · cases h
      exact htail
    · exact htail.tcpClose hnot h
  | some client =>
    obtain ⟨hchannel, hreserve, hroom⟩ :=
      hg.passedOn handle grant ch endpoint client mem_cons_self hpcb hclient
    obtain ⟨ourCh, hour⟩ := isSome_iff_exists.1 hchannel
    have hsend : ¬ (grant.reserve = false ∨ queueLenMax ≤ client.queued) := by
      rw [hreserve, not_or]
      exact ⟨by simp, Nat.not_le.2 hroom⟩
    simp only [onTcpAccept, hour, sendConnect, hclient, if_neg hsend] at h
    obtain ⟨s₁, hadd, h⟩ := bind_eq_some_iff.1 h
    obtain ⟨s₂, hlisten, hlast⟩ := bind_eq_some_iff.1 h
    obtain ⟨hlacking, rfl⟩ := addChannel_eq_some.1 hadd
    cases hlast
    have hitem : update s.items ourCh (some (.tcpConn handle)) ch = some .tcpListen :=
      update_of_lacking hlacking (hg.listen handle ch _ hpcb)
    refine (hg.connected hpcb hclient hlacking).relisten ?_ hitem ?_ hlisten
    · intro handle' endpoint' hpcb'
      obtain ⟨hne, hold⟩ := of_update hpcb' nofun
      exact hne (hg.unique handle' handle ch _ _ hold hpcb)
    · intro client' hclient'
      rcases update_eq_some.1 hclient' with ⟨-, hnew⟩ | ⟨hne, -⟩
      · cases hnew
        exact (hg.accepted_of_client hpcb hclient).1
      · exact absurd rfl hne

/-- Data leaves the account as it is. -/
theorem Good.readable (hg : s.Good todo owed) (h : s.onTcpReadable handle ch drain = some s') :
    s'.Good todo owed := by
  unfold onTcpReadable at h
  split at h
  · cases h
    exact hg
  · obtain ⟨s₁, hdrain, hrest⟩ := bind_eq_some_iff.1 h
    obtain rfl := eq_of_drainSocketToCh hdrain
    cases drain with
    | ok =>
      cases hrest
      exact hg
    | backpressure =>
      cases hrest
      exact hg.of_eq rfl rfl rfl rfl

theorem Good.applyChange {change : SocketHandle × Change} (hg : s.Good (change :: rest) none)
    (h : s.applyChange change = some s') : s'.Good rest none := by
  obtain ⟨handle, change⟩ := change
  simp only [Server.applyChange] at h
  split at h
  · cases h
  next ch endpoint grant hpcb => exact hg.accepted hpcb h
  next ch grant hpcb =>
    cases h
    exact hg.tail (idle_of_conn hpcb)
  next ch drain hpcb => exact (hg.tail (idle_of_conn hpcb)).readable h
  next ch hpcb => exact hg.closed (by simp) (.inl hpcb) h
  next ch endpoint hpcb => exact hg.closed (by simp) (.inr ⟨endpoint, hpcb⟩) h
  · cases h

/-- All changes of a poll are handled. By induction on the list. -/
theorem Good.applyChanges (hg : s.Good todo none) (h : s.applyChanges todo = some s') :
    s'.Good [] none := by
  induction todo generalizing s with
  | nil =>
    cases h
    exact hg
  | cons change rest ih =>
    obtain ⟨s₁, hchange, hrest⟩ := bind_eq_some_iff.1 h
    exact ih (hg.applyChange hchange) hrest

namespace Good

variable (hg : s.Good [] none)

include hg

/-- **The stack reports**: a client whose socket accepted a connection
waits for this change to be handled. -/
theorem stackPolled {changes : List (SocketHandle × Change)}
    (hreport : s.reportable changes = true) (hpass : s.PassesOn (.poll changes)) :
    (s.stackPolled changes).Good changes none := by
  simp only [reportable, Bool.and_eq_true, decide_eq_true_eq, List.all_eq_true] at hreport
  obtain ⟨hnodup, hreport⟩ := hreport
  refine ⟨?_, hg.conn, hg.item, hg.listen, hg.unique, hg.registered, ?_, ?_, hnodup, hpass⟩
  · intro handle pcb hpcb
    simp only [Server.stackPolled]
    split
    · rfl
    · exact hg.socket handle pcb hpcb
  · intro ch client hclient _
    obtain ⟨handle, hsocket, hpcb⟩ := hg.listening hclient
    refine ⟨handle, hpcb, ?_⟩
    simp only [Server.stackPolled]
    split
    · -- a socket that listens has nothing but an accept reported
      rename_i hmem
      obtain ⟨⟨handle', change⟩, hchange, rfl⟩ := mem_map.1 hmem
      have hthis := hreport _ hchange
      simp only [hsocket] at hthis
      cases change with
      | accepted grant => exact .inr ⟨grant, hchange⟩
      | readable drain => cases hthis
      | closed => cases hthis
    · exact .inl hsocket
  · intro change hchange
    simp only [Server.stackPolled, if_pos (mem_map_of_mem hchange)]

/-! ## Blocked sockets and events -/

theorem retryOne {drain : SocketHandle → DrainResult} (h : s.retryOne drain handle = some s') :
    s'.Good [] none := by
  unfold Server.retryOne at h
  split at h
  · cases h
  · cases h
    exact hg
  next ch hpcb =>
    split at h
    · split at h
      · have hg' : ({ s with pendingClose := s.pendingClose.erase handle } : Server).Good []
            none := hg.of_eq rfl rfl rfl rfl
        exact hg'.tcpClose (idle_of_conn hpcb) h
      · rw [eq_of_listen h]
        exact hg
    · cases h
      exact hg.of_eq rfl rfl rfl rfl

theorem retryAll {drain : SocketHandle → DrainResult} {handles : List SocketHandle}
    (h : s.retryAll drain handles = some s') : s'.Good [] none := by
  induction handles generalizing s with
  | nil =>
    cases h
    exact hg
  | cons handle rest ih =>
    obtain ⟨s₁, hone, hrest⟩ := bind_eq_some_iff.1 h
    exact ih (hg.retryOne hone) hrest

omit hg in
/-- A socket without a control block is opened. -/
theorem tcpListen (hg : s.Good todo owed) (h : s.tcpListen endpoint handle = some s') :
    s'.Good todo owed := by
  obtain ⟨-, hfree, rfl⟩ := tcpListen_eq_some.1 h
  refine ⟨?_, hg.conn, hg.item, hg.listen, hg.unique, hg.registered, ?_, ?_, hg.nodup, hg.passedOn⟩
  · exact fun handle' pcb hpcb => isSome_update rfl (hg.socket handle' pcb hpcb)
  · intro ch client hclient howed
    obtain ⟨handle', hpcb, hlistening⟩ := hg.served ch client hclient howed
    exact ⟨handle', hpcb, hlistening.imp_left fun hsocket => update_of_lacking hfree hsocket⟩
  · exact fun change hchange => update_of_lacking hfree (hg.active change hchange)

/-- **The client of a channel changes.** -/
theorem setClient {new : Option Client} (hitem : ∀ client ∈ new, s.items ch = some .tcpListen)
    (hserved : ∀ client ∈ new, owed ≠ some ch → ∃ handle,
      s.sockets handle = some (.listening client.endpoint) ∧
        s.pcbs handle = some (.tcpListen ch client.endpoint)) :
    ({ s with clients := update s.clients ch new } : Server).Good [] owed := by
  refine ⟨hg.socket, hg.conn, hg.item, hg.listen, hg.unique, ?_, ?_, hg.active, hg.nodup, nofun⟩
  · intro ch' client hclient
    rcases update_eq_some.1 hclient with ⟨rfl, hnew⟩ | ⟨-, hold⟩
    · exact hitem client hnew
    · exact hg.registered ch' client hold
  · intro ch' client hclient howed
    rcases update_eq_some.1 hclient with ⟨rfl, hnew⟩ | ⟨-, hold⟩
    · obtain ⟨handle, hsocket, hpcb⟩ := hserved client hnew howed
      exact ⟨handle, hpcb, .inl hsocket⟩
    · exact hg.served ch' client hold nofun

/-- A client of a channel that is in the event loop waits for its socket. -/
theorem newClient (hitem : s.items ch = some .tcpListen) (client : Client) :
    ({ s with clients := update s.clients ch (some client) } : Server).Good [] (some ch) :=
  hg.setClient (fun _ _ => hitem) fun _ _ howed => absurd rfl howed

/-- **A client starts to listen.** -/
theorem handleTcpListenOpen {port : Endpoint} {socket : SocketHandle}
    {channel : Option HandleId} (h : s.handleTcpListenOpen port socket channel = some s') :
    s'.Good [] none := by
  unfold Server.handleTcpListenOpen at h
  split at h
  · cases h
    exact hg
  · obtain ⟨s₁, hlisten, hrest⟩ := bind_eq_some_iff.1 h
    cases channel with
    | none =>
      cases hrest
      exact hg.tcpListen hlisten
    | some ch =>
      obtain ⟨s₂, hadd, hlast⟩ := bind_eq_some_iff.1 hrest
      cases hlast
      obtain ⟨hport, hfree, rfl⟩ := tcpListen_eq_some.1 hlisten
      obtain ⟨hlacking, rfl⟩ := addChannel_eq_some.1 hadd
      -- the channel might as well have come before the socket
      have hadd₀ : s.addChannel ch .tcpListen = some
          { s with items := update s.items ch (some .tcpListen) } :=
        addChannel_eq_some.2 ⟨hlacking, rfl⟩
      have hitem : update s.items ch (some Context.tcpListen) ch = some .tcpListen :=
        update_self ..
      refine ((hg.addChannel (by simp) hadd₀).newClient hitem ⟨port, 0⟩).relisten ?_ hitem ?_
        (tcpListen_eq_some.2 ⟨hport, hfree, rfl⟩)
      · intro handle endpoint hpcb
        have hregistered := hg.listen handle ch endpoint hpcb
        rw [hlacking] at hregistered
        cases hregistered
      · intro client hclient
        rcases update_eq_some.1 hclient with ⟨-, hnew⟩ | ⟨hne, -⟩
        · cases hnew
          rfl
        · exact absurd rfl hne

omit hg in
/-- A connection's channel stands for its own socket. -/
theorem pcbs_of_connOf (hg : s.Good todo owed) (h : s.connOf ch = some handle) :
    s.pcbs handle = some (.tcpConn ch) := by
  unfold connOf at h
  split at h
  · rename_i handle' hitem
    split at h
    · cases h
      exact hg.item _ ch hitem
    · cases h
  · cases h

theorem onConnWritable (h : s.onConnWritable ch drain = some s') : s'.Good [] none := by
  obtain ⟨handle, -, h⟩ := bind_eq_some_iff.1 h
  obtain ⟨s₁, hdrain, h⟩ := bind_eq_some_iff.1 h
  obtain rfl := eq_of_drainSocketToCh hdrain
  cases drain <;>
  · cases h
    exact hg.of_eq rfl rfl rfl rfl

theorem onConnReadable (h : s.onConnReadable ch drain = some s') : s'.Good [] none := by
  obtain ⟨handle, -, h⟩ := bind_eq_some_iff.1 h
  cases drain with
  | ok =>
    cases h
    exact hg
  | backpressure =>
    obtain ⟨s₁, hlisten, hlast⟩ := bind_eq_some_iff.1 h
    obtain rfl := eq_of_listen hlisten
    cases hlast
    exact hg.of_eq rfl rfl rfl rfl

theorem onConnClosed (h : s.onConnClosed ch drain = some s') : s'.Good [] none := by
  obtain ⟨handle, hconn, h⟩ := bind_eq_some_iff.1 h
  have hpcb := hg.pcbs_of_connOf hconn
  cases drain with
  | ok =>
    have hg' : ({ s with
        readBlocked := s.readBlocked.erase handle
        writeBlocked := s.writeBlocked.erase handle } : Server).Good [] none :=
      hg.of_eq rfl rfl rfl rfl
    exact hg'.tcpClose (idle_of_conn hpcb) h
  | backpressure =>
    cases h
    exact hg.of_eq rfl rfl rfl rfl

/-! ## Clients -/

/-- A client takes a connection from its queue. -/
theorem clientRecv {queued queued' : Nat} (hclient : s.clients ch = some ⟨endpoint, queued⟩) :
    ({ s with clients := update s.clients ch (some ⟨endpoint, queued'⟩) } :
      Server).Good [] none := by
  refine hg.setClient (fun _ _ => hg.registered ch _ hclient) ?_
  rintro client ⟨⟩ -
  have hlistening := hg.listening hclient
  exact hlistening

/-- A client gives up its listen channel. -/
theorem clientClose : ({ s with clients := update s.clients ch none } : Server).Good [] none :=
  hg.setClient nofun nofun

/-! ## Runs -/

/-- **A step in which every accept is passed on keeps the account.** -/
theorem step {op : Op} (hpass : s.PassesOn op) (h : s.step op = some s') :
    s'.Good [] none := by
  cases op with
  | poll changes =>
    simp only [Server.step] at h
    split at h
    · rename_i hreport
      exact (hg.stackPolled hreport hpass).applyChanges h
    · cases h
  | retry drain =>
    have hg' : ({ s with writeBlocked := [] } : Server).Good [] none := hg.of_eq rfl rfl rfl rfl
    exact hg'.retryAll h
  | openListen port socket channel => exact hg.handleTcpListenOpen h
  | connect ch => exact hg.addChannel (by simp) h
  | openDevice ch => exact hg.addChannel (by simp) h
  | controlClosed ch =>
    simp only [Server.step] at h
    split at h
    · rename_i hcontrol
      exact hg.removeItem (by simp [hcontrol]) (by simp [hcontrol]) h
    · cases h
  | connWritable ch drain => exact hg.onConnWritable h
  | connReadable ch drain => exact hg.onConnReadable h
  | connClosed ch drain => exact hg.onConnClosed h
  | clientRecv ch =>
    simp only [Server.step] at h
    split at h
    · rename_i endpoint queued hclient
      cases h
      exact hg.clientRecv hclient
    · cases h
  | clientClose ch =>
    simp only [Server.step] at h
    split at h
    · cases h
      exact hg.clientClose
    · cases h

end Good

theorem good_boot (systemCh timer : HandleId) : (boot systemCh timer).Good [] none where
  socket := nofun
  conn := nofun
  item := fun _ _ hitem => nomatch (of_update (of_update hitem nofun).2 nofun).2
  listen := nofun
  unique := nofun
  registered := nofun
  served := nofun
  active := nofun
  nodup := nodup_nil
  passedOn := nofun

/-- **If every accept is passed on, every client is served**, whatever
connects, closes and blocks in between. -/
theorem served_of_passesOn {systemCh timer : HandleId}
    (h : machine.ReachUnder PassesOn (boot systemCh timer) s) : s.Served := by
  have hgood : s.Good [] none :=
    h.invariant (I := fun s => s.Good [] none) (good_boot systemCh timer)
      fun hg hpass hstep => hg.step hpass hstep
  exact hgood.served_all

/-- A client that listens on a port, and a connection that is passed on
to it. -/
theorem served_of_one_connection : ∃ s, machine.ReachUnder PassesOn (boot 1 2) s ∧
    s.clients 10 = some ⟨80, 1⟩ ∧ s.Served := by
  have hreach : ∃ s, machine.ReachUnder PassesOn (boot 1 2) s ∧ s.clients 10 = some ⟨80, 1⟩ := by
    refine ⟨_, .tail (a := .poll [(0, .accepted ⟨some 11, true, 1⟩)])
      (.tail (a := .openListen 80 0 (some 10)) .refl trivial rfl) ?_ rfl, rfl⟩
    intro handle grant ch endpoint client hmem hpcb hclient
    obtain ⟨rfl, hgrant⟩ := Prod.mk.inj (mem_singleton.1 hmem)
    obtain rfl := Change.accepted.inj hgrant
    obtain ⟨rfl, -⟩ := Pcb.tcpListen.inj (some.inj hpcb)
    cases hclient
    decide
  obtain ⟨s, hs, hclient⟩ := hreach
  exact ⟨s, hs, hclient, served_of_passesOn hs⟩

/-- Connections until the queue of the client is full, one more, and its
close. -/
def fullQueue : List Op :=
  .openListen 80 0 (some 10) ::
    (List.range 33).map (fun i => .poll [(i, .accepted ⟨some (11 + i), true, i + 1⟩)]) ++
      [.poll [(32, .closed)]]

/-- **A connection that does not fit the client's queue takes the listen
channel with it.** The client still holds its end, but nothing listens
for it any more, and the channel has left the event loop. -/
theorem not_served_of_full_queue : ∃ s, machine.Reach (boot 1 2) s ∧ ¬ s.Served := by
  obtain ⟨s, hreach, hclient, hitem⟩ : ∃ s, machine.Reach (boot 1 2) s ∧
      s.clients 10 = some ⟨80, 32⟩ ∧ s.items 10 = none :=
    Machine.exists_reachUnder fullQueue (by decide +kernel)
  refine ⟨s, hreach, ?_⟩
  intro hserved
  have hregistered := (hserved 10 ⟨80, 32⟩ hclient).2
  rw [hitem] at hregistered
  cases hregistered

/-- **No connection is served on the channel of another.** If every
accept is passed on, the control blocks of connections and their
channels in the event loop name each other, and no control block is left
without its socket. -/
theorem conn_iff_of_passesOn {systemCh timer : HandleId}
    (h : machine.ReachUnder PassesOn (boot systemCh timer) s) :
    (s.pcbs handle = some (.tcpConn ch) ↔ s.items ch = some (.tcpConn handle)) ∧
      ((s.pcbs handle).isSome → (s.sockets handle).isSome) := by
  have hgood : s.Good [] none :=
    h.invariant (I := fun s => s.Good [] none) (good_boot systemCh timer)
      fun hg hpass hstep => hg.step hpass hstep
  refine ⟨⟨hgood.conn handle ch, hgood.item handle ch⟩, fun hsome => ?_⟩
  obtain ⟨pcb, hpcb⟩ := isSome_iff_exists.1 hsome
  exact hgood.socket handle pcb hpcb

/-- A connection that is passed on. -/
theorem conn_iff_of_accept : ∃ s, machine.ReachUnder PassesOn (boot 1 2) s ∧
    s.items 11 = some (.tcpConn 0) ∧ (s.sockets 0).isSome := by
  have hreach : ∃ s, machine.ReachUnder PassesOn (boot 1 2) s ∧ s.pcbs 0 = some (.tcpConn 11) := by
    refine ⟨_, .tail (a := .poll [(0, .accepted ⟨some 11, true, 1⟩)])
      (.tail (a := .openListen 80 0 (some 10)) .refl trivial rfl) ?_ rfl, rfl⟩
    intro handle grant ch endpoint client hmem hpcb hclient
    obtain ⟨rfl, hgrant⟩ := Prod.mk.inj (mem_singleton.1 hmem)
    obtain rfl := Change.accepted.inj hgrant
    obtain ⟨rfl, -⟩ := Pcb.tcpListen.inj (some.inj hpcb)
    cases hclient
    decide
  obtain ⟨s, hs, hpcb⟩ := hreach
  obtain ⟨hconn, hsocket⟩ : (s.pcbs 0 = some (.tcpConn 11) ↔ _) ∧ _ := conn_iff_of_passesOn hs
  exact ⟨s, hs, hconn.1 hpcb, hsocket (by rw [hpcb]; rfl)⟩

end Archives.Ftl.Tcpip.Server
