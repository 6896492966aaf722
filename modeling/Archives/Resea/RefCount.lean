import Archives.Resea.Basic
import Archives.Resea.Model.References
/-!
# Resea — reference counts

While `channel_decref` releases a channel it works on a kernel whose
counts do not add up yet: a channel about to be freed still names the
channel it transfers to, whose count has already been given back. The
invariant is therefore relative to the set `E` of channels whose
transfer no longer counts, and `channel_decref` keeps it for every such
set. Between operations `E` is empty, and the count is the number of
references.
-/

namespace Archives.Resea.Kernel

open Option Finset Heap Ne

variable {PT : Type} {k k' : Kernel PT} {c d x : ChId} {ch : Channel} {E : Finset ChId}
  {f : Channel → Channel} {fuel : ℕ}

theorem mem_linkers : d ∈ k.linkers c ↔ ∃ ch, k.channels.get d = some ch ∧ d ≠ c ∧
    ch.linkedWith = c := by
  simp [linkers, mem_filter]

theorem mem_transferrers : d ∈ k.transferrers c ↔ ∃ ch, k.channels.get d = some ch ∧ d ≠ c ∧
    ch.transferTo = c := by
  simp [transferrers, mem_filter]

/-- The table entries are exactly the channels that are there. -/
structure Entries (k : Kernel PT) : Prop where
  entry : ∀ {c ch}, k.channels.get c = some ch →
    ∃ pr, k.processes.get ch.process = some pr ∧ pr.channels[ch.cid]? = some (.channel c)
  table : ∀ {p pr} {i : ℕ} {c}, k.processes.get p = some pr →
    pr.channels[i]? = some (.channel c) →
    ∃ ch, k.channels.get c = some ch ∧ ch.process = p ∧ ch.cid = i

def MutualLinks (k : Kernel PT) : Prop :=
  ∀ ⦃c ch⦄, k.channels.get c = some ch →
    ∃ ch', k.channels.get ch.linkedWith = some ch' ∧ ch'.linkedWith = c

/-- **The counts add up**, apart from the transfers of the channels in
`E`, and the transfers that count lead to channels that are there. -/
structure Counts (E : Finset ChId) (k : Kernel PT) : Prop where
  count : ∀ {c ch}, k.channels.get c = some ch →
    ch.refCount = k.tableRefs c + (k.linkers c).card + (k.transferrers c \ E).card
  link : MutualLinks k
  transfer : ∀ {c ch}, k.channels.get c = some ch → c ∉ E →
    ∃ ch', k.channels.get ch.transferTo = some ch'
  entries : Entries k

/-- Links being mutual, a channel has one linker or none. -/
theorem card_linkers (hlink : MutualLinks k) (hc : k.channels.get c = some ch) :
    (k.linkers c).card = if ch.linkedWith = c then 0 else 1 := by
  have hmem : ∀ d, d ∈ k.linkers c ↔ d ≠ c ∧ d = ch.linkedWith := by
    intro d
    rw [mem_linkers]
    constructor
    · rintro ⟨chd, hd, hne, hl⟩
      obtain ⟨ch', hget, hback⟩ := hlink hd
      rw [hl, hc] at hget
      cases hget
      exact ⟨hne, hback.symm⟩
    · rintro ⟨hne, rfl⟩
      obtain ⟨ch', hget, hback⟩ := hlink hc
      exact ⟨ch', hget, hne, hback⟩
  split
  · rename_i hself
    rw [card_eq_zero]
    refine eq_empty_of_forall_notMem fun d hd => ?_
    obtain ⟨hne, rfl⟩ := (hmem d).mp hd
    exact hne hself
  · rename_i hne
    rw [card_eq_one]
    refine ⟨ch.linkedWith, Finset.ext fun d => ?_⟩
    rw [hmem, mem_singleton]
    exact ⟨And.right, fun hd => ⟨hd ▸ hne, hd⟩⟩

/-- The references to a channel that it knows of itself: the one of its
table, and the one of the channel it is linked with. -/
def ownRefs (c : ChId) (ch : Channel) : ℕ :=
  (if ch.destructed then 0 else 1) + if ch.linkedWith = c then 0 else 1

theorem tableRefs_add_card_linkers (hlink : MutualLinks k) (hc : k.channels.get c = some ch) :
    k.tableRefs c + (k.linkers c).card = ownRefs c ch := by
  rw [card_linkers hlink hc, tableRefs, hc, ownRefs, any_some]
  cases ch.destructed <;> rfl

theorem Counts.own (h : Counts E k) (hc : k.channels.get c = some ch) :
    ch.refCount = ownRefs c ch + (k.transferrers c \ E).card := by
  have hrefs := tableRefs_add_card_linkers h.link hc
  have hcount := h.count hc
  omega

theorem Counts.of_own (hcount : ∀ {c ch}, k.channels.get c = some ch →
      ch.refCount = ownRefs c ch + (k.transferrers c \ E).card) (hlink : MutualLinks k)
    (htransfer : ∀ {c ch}, k.channels.get c = some ch → c ∉ E →
      ∃ ch', k.channels.get ch.transferTo = some ch') (hentries : Entries k) : Counts E k where
  count hc := by
    have hrefs := tableRefs_add_card_linkers hlink hc
    have hown := hcount hc
    omega
  link := hlink
  transfer := htransfer
  entries := hentries

/-- A channel nobody refers to is not linked. -/
theorem Counts.linkedWith_eq_self (h : Counts E k) (hc : k.channels.get c = some ch)
    (h0 : ch.refCount < 1) : ch.linkedWith = c := by
  have hown := h.own hc
  unfold ownRefs at hown
  by_contra hne
  rw [if_neg hne] at hown
  omega

/-- A channel nobody refers to is the target of no transfer that counts. -/
theorem Counts.not_mem_transferrers (h : Counts E k) (hc : k.channels.get c = some ch)
    (h0 : ch.refCount < 1) (hx : x ∈ k.transferrers c) : x ∈ E := by
  by_contra hne
  have hmem : x ∈ k.transferrers c \ E := mem_sdiff.mpr ⟨hx, hne⟩
  have hpos : 0 < (k.transferrers c \ E).card := card_pos.mpr ⟨_, hmem⟩
  have hcount := h.count hc
  omega

theorem Counts.transferrers_eq_empty (h : Counts ∅ k) (hc : k.channels.get c = none) :
    k.transferrers c = ∅ := by
  refine eq_empty_of_forall_notMem fun d hd => ?_
  obtain ⟨ch, hget', -, rfl⟩ := mem_transferrers.mp hd
  obtain ⟨ch', hget⟩ := h.transfer hget' (notMem_empty d)
  simp [hc] at hget

/-- Nothing refers to a channel that is not there. -/
theorem Counts.refs_eq_zero (h : Counts ∅ k) (hc : k.channels.get c = none) : k.refs c = 0 := by
  have hlink : k.linkers c = ∅ := by
    refine eq_empty_of_forall_notMem fun d hd => ?_
    obtain ⟨ch, hget', -, rfl⟩ := mem_linkers.mp hd
    obtain ⟨ch', hget, -⟩ := h.link hget'
    simp [hc] at hget
  simp [refs, tableRefs, hlink, h.transferrers_eq_empty hc, hc]

/-- The counts are about channels and tables only. -/
theorem Counts.congr (h : Counts E k) (hch : k'.channels = k.channels)
    (hpr : k'.processes = k.processes) : Counts E k' := by
  cases k'
  subst hch hpr
  exact ⟨h.count, h.link, h.transfer, h.entries.entry, h.entries.table⟩

/-! ## Changes of a channel -/

/-- The two kernels have the same channels in the same tables. -/
structure SameEntries (k k' : Kernel PT) : Prop where
  processes : k'.processes = k.processes
  old : ∀ {x ch'}, k'.channels.get x = some ch' →
    ∃ ch, k.channels.get x = some ch ∧ ch'.process = ch.process ∧ ch'.cid = ch.cid
  new : ∀ {x ch}, k.channels.get x = some ch →
    ∃ ch', k'.channels.get x = some ch' ∧ ch'.process = ch.process ∧ ch'.cid = ch.cid

theorem SameEntries.trans {k₁ k₂ k₃ : Kernel PT} (h₁ : SameEntries k₁ k₂)
    (h₂ : SameEntries k₂ k₃) : SameEntries k₁ k₃ where
  processes := h₂.processes.trans h₁.processes
  old hx := by
    obtain ⟨ch₂, hx₂, hp₂, hi₂⟩ := h₂.old hx
    obtain ⟨ch₁, hx₁, hp₁, hi₁⟩ := h₁.old hx₂
    exact ⟨ch₁, hx₁, hp₂.trans hp₁, hi₂.trans hi₁⟩
  new hx := by
    obtain ⟨ch₂, hx₂, hp₂, hi₂⟩ := h₁.new hx
    obtain ⟨ch₁, hx₁, hp₁, hi₁⟩ := h₂.new hx₂
    exact ⟨ch₁, hx₁, hp₁.trans hp₂, hi₁.trans hi₂⟩

/-- What a replacement keeps, it keeps whether it takes place or not. -/
theorem apply_ite_of {α : Type} {g : Channel → α} (hf : ∀ ch, g (f ch) = g ch) :
    g (if c = x then f ch else ch) = g ch := by
  split
  · exact hf ch
  · rfl

theorem SameEntries.modifyChannel (hf : ∀ ch, (f ch).process = ch.process ∧ (f ch).cid = ch.cid) :
    SameEntries k (k.modifyChannel c f) where
  processes := rfl
  old hx := by
    obtain ⟨ch₀, hget, rfl⟩ := get_modify_eq_some.1 hx
    exact ⟨ch₀, hget, apply_ite_of fun ch => (hf ch).1, apply_ite_of fun ch => (hf ch).2⟩
  new hx := ⟨_, get_modify_eq_some.2 ⟨_, hx, rfl⟩, apply_ite_of fun ch => (hf ch).1,
    apply_ite_of fun ch => (hf ch).2⟩

theorem Entries.of_same (h : Entries k) (hk : SameEntries k k') : Entries k' where
  entry hx := by
    obtain ⟨ch₀, hget, hp, hcid⟩ := hk.old hx
    obtain ⟨pr, hpr, hentry⟩ := h.entry hget
    exact ⟨pr, by rw [hk.processes, hp, hpr], hcid ▸ hentry⟩
  table hp hi := by
    rw [hk.processes] at hp
    obtain ⟨ch₀, hget, hproc, hcid⟩ := h.table hp hi
    obtain ⟨ch', hget', hproc', hcid'⟩ := hk.new hget
    exact ⟨ch', hget', hproc'.trans hproc, hcid'.trans hcid⟩

theorem transferrers_modifyChannel (hf : ∀ ch, (f ch).transferTo = ch.transferTo) (x : ChId) :
    (k.modifyChannel c f).transferrers x = k.transferrers x :=
  filter_modify fun ch _ => by rw [hf ch]

theorem MutualLinks.modifyChannel (h : MutualLinks k) (hf : ∀ ch, (f ch).linkedWith = ch.linkedWith)
    : MutualLinks (k.modifyChannel c f) := by
  intro x chx hx
  obtain ⟨ch₀, hget, rfl⟩ := get_modify_eq_some.1 hx
  obtain ⟨ch₁, hget₁, hback⟩ := h hget
  rw [apply_ite_of hf]
  exact ⟨_, get_modify_eq_some.2 ⟨ch₁, hget₁, rfl⟩, (apply_ite_of hf).trans hback⟩

/-- A change that keeps the edges only has to keep the counts, and may
let go of some transfers. -/
theorem Counts.modifyChannel {E' : Finset ChId} (h : Counts E k)
    (hentry : ∀ ch, (f ch).process = ch.process ∧ (f ch).cid = ch.cid)
    (hlink : ∀ ch, (f ch).linkedWith = ch.linkedWith)
    (htransfer : ∀ ch, (f ch).transferTo = ch.transferTo) (hE : E ⊆ E')
    (hcount : ∀ {x ch}, (k.modifyChannel c f).channels.get x = some ch →
      ch.refCount = ownRefs x ch + (k.transferrers x \ E').card) :
    Counts E' (k.modifyChannel c f) := by
  refine .of_own (fun hx => ?_) (h.link.modifyChannel hlink) (fun {x chx} hx hxE => ?_)
    (h.entries.of_same (.modifyChannel hentry))
  · rw [transferrers_modifyChannel htransfer]
    exact hcount hx
  · obtain ⟨ch₀, hget, rfl⟩ := get_modify_eq_some.1 hx
    obtain ⟨ch₁, hget₁⟩ := h.transfer hget fun hmem => hxE (hE hmem)
    rw [apply_ite_of htransfer]
    exact ⟨_, get_modify_eq_some.2 ⟨ch₁, hget₁, rfl⟩⟩

/-! ## Releasing a channel -/

/-- What remains of the other processes' tables when an entry is freed. -/
theorem getElem?_tableFree {t : Table} {i j : ℕ} {e : Entry} (he : e ≠ .null) :
    (tableFree t i)[j]? = some e ↔ i ≠ j ∧ t[j]? = some e := by
  unfold tableFree
  rw [List.getElem?_set]
  split
  · subst j
    split <;> simp [he.symm]
  · simp_all

/-- **A channel nobody refers to can go**, and with it the transfer it
had stopped being counted for. -/
theorem Counts.free (h : Counts (insert c E) k) (hc : k.channels.get c = some ch)
    (h0 : ch.refCount < 1) (hch : k'.channels = k.channels.free c)
    (hpr : k'.processes = k.processes.modify ch.process fun pr => { pr with
      channels := tableFree pr.channels ch.cid, channelList := pr.channelList.erase c }) :
    Counts E k' := by
  have hself := h.linkedWith_eq_self hc h0
  have hget : ∀ {x chx}, k'.channels.get x = some chx ↔ c ≠ x ∧ k.channels.get x = some chx := by
    rw [hch]
    exact get_free_eq_some
  refine .of_own (fun {x chx} hx => ?_) (fun {x chx} hx => ?_) (fun {x chx} hx hxE => ?_)
    ⟨fun {x chx} hx => ?_, fun {p pr i x} hp hi => ?_⟩
  · obtain ⟨hne, hx₀⟩ := hget.1 hx
    have htransfer : k'.transferrers x \ E = k.transferrers x \ insert c E := by
      rw [transferrers, hch, filter_free, sdiff_insert, erase_sdiff_comm]
      rfl
    rw [htransfer, h.own hx₀]
  · obtain ⟨hne, hx₀⟩ := hget.1 hx
    obtain ⟨ch₁, hget₁, hback⟩ := h.link hx₀
    refine ⟨ch₁, hget.2 ⟨?_, hget₁⟩, hback⟩
    rintro rfl
    rw [hc] at hget₁
    cases hget₁
    exact hne (hself.symm.trans hback)
  · obtain ⟨hne, hx₀⟩ := hget.1 hx
    have hxE' : x ∉ insert c E := by
      rw [mem_insert]
      exact not_or.mpr ⟨hne.symm, hxE⟩
    obtain ⟨ch₁, hget₁⟩ := h.transfer hx₀ hxE'
    refine ⟨ch₁, hget.2 ⟨fun hto => ?_, hget₁⟩⟩
    exact hxE' (h.not_mem_transferrers hc h0 (mem_transferrers.mpr ⟨chx, hx₀, hne.symm, hto.symm⟩))
  · obtain ⟨hne, hx₀⟩ := hget.1 hx
    obtain ⟨pr, hp, hentry⟩ := h.entries.entry hx₀
    rw [hpr, get_modify]
    split
    · rename_i hproc
      refine ⟨_, by rw [hp]; rfl, (getElem?_tableFree (by simp)).mpr ⟨?_, hentry⟩⟩
      intro hcid
      obtain ⟨pr', hp', hentry'⟩ := h.entries.entry hc
      rw [hproc, hp] at hp'
      cases hp'
      simp_all
    · exact ⟨pr, hp, hentry⟩
  · rw [hpr, get_modify] at hp
    split at hp
    · rename_i hproc
      obtain ⟨pr₀, hp₀, rfl⟩ := map_eq_some_iff.mp hp
      obtain ⟨hcid, hi₀⟩ := (getElem?_tableFree (by simp)).mp hi
      obtain ⟨chx, hx, hxp, hxi⟩ := h.entries.table hp₀ hi₀
      refine ⟨chx, hget.2 ⟨?_, hx⟩, hxp, hxi⟩
      rintro rfl
      rw [hc] at hx
      cases hx
      exact hcid hxi
    · rename_i hproc
      obtain ⟨chx, hx, hxp, hxi⟩ := h.entries.table hp hi
      refine ⟨chx, hget.2 ⟨?_, hx⟩, hxp, hxi⟩
      rintro rfl
      rw [hc] at hx
      cases hx
      exact hproc hxp

theorem abortReceiver_channels {r : Option ThId} (h : k.abortReceiver r = .ok k') :
    k'.channels = k.channels ∧ k'.processes = k.processes := by
  cases r with
  | none =>
    obtain rfl := pure_eq_ok.mp h
    exact ⟨rfl, rfl⟩
  | some r =>
    obtain ⟨k₁, hk₁, hres⟩ := bind_eq_ok.mp h
    obtain ⟨-, rfl⟩ := updateThread_eq_ok.mp hk₁
    simpa using threadResume_channels hres

/-- What `channel_decref` leaves of the channels when it frees one. -/
theorem channelRelease_channels (h : k.channelRelease c = .ok k') :
    ∃ ch, k.channels.get c = some ch ∧ k'.channels = k.channels.free c ∧
      k'.processes = k.processes.modify ch.process fun pr => { pr with
        channels := tableFree pr.channels ch.cid, channelList := pr.channelList.erase c } := by
  simp only [channelRelease, bind_eq_ok, channel_eq_ok, ite_eq_ok, process_eq_ok, pure_eq_ok,
    reduceCtorEq, and_false, false_or] at h
  obtain ⟨ch, hc, k₁, hk₁, -, pr, -, rfl⟩ := h
  obtain ⟨hch, hpr⟩ := abortReceiver_channels hk₁
  refine ⟨ch, hc, ?_, ?_⟩
  · rw [← hch]
    rfl
  · rw [← hpr]
    rfl

/-! ## Giving up a reference -/

/-- The change `channel_decref` begins with. -/
def decremented (ch : Channel) : Channel := { ch with refCount := ch.refCount - 1 }

/-- A channel without a transfer counts for none. -/
theorem Counts.insert_of_self (h : Counts E k) (hc : k.channels.get c = some ch)
    (hself : ch.transferTo = c) : Counts (insert c E) k where
  count {x chx} hx := by
    rw [sdiff_insert, erase_eq_of_notMem, h.count hx]
    intro hmem
    obtain ⟨ch', hc', hne, hto⟩ := mem_transferrers.mp (mem_sdiff.mp hmem).1
    rw [hc] at hc'
    cases hc'
    exact hne (hself.symm.trans hto)
  link := h.link
  transfer hx hxE := h.transfer hx fun hmem => hxE (mem_insert_of_mem hmem)
  entries := h.entries

/-- The target of a transfer that is given up has one reference less. -/
theorem Counts.decremented_transfer (h : Counts E k) (hc : k.channels.get c = some ch)
    (hcE : c ∉ E) (hne : ch.transferTo ≠ c) :
    Counts (insert c E) (k.modifyChannel ch.transferTo decremented) := by
  refine h.modifyChannel (fun _ => ⟨rfl, rfl⟩) (fun _ => rfl) (fun _ => rfl)
    (subset_insert c E) fun {x chx} hx => ?_
  obtain ⟨ch₀, hget, rfl⟩ := get_modify_eq_some.1 hx
  have hown := h.own hget
  rw [sdiff_insert]
  split
  · subst x
    have hmem : c ∈ k.transferrers ch.transferTo \ E :=
      mem_sdiff.mpr ⟨mem_transferrers.mpr ⟨ch, hc, hne.symm, rfl⟩, hcE⟩
    have hcard := card_erase_add_one hmem
    show ch₀.refCount - 1 = ownRefs ch.transferTo ch₀ + _
    omega
  · rename_i hxne
    rw [erase_eq_of_notMem, hown]
    intro hmem
    obtain ⟨ch', hc', -, hto⟩ := mem_transferrers.mp (mem_sdiff.mp hmem).1
    rw [hc] at hc'
    cases hc'
    exact hxne hto

/-- Stopping a transfer gives up the reference to its target. -/
theorem channelTransferWith_self {decref : Kernel PT → ChId → Except Fault (Kernel PT)}
    (h : k.channelTransferWith decref c c = .ok k') :
    ∃ ch k₁, k.channels.get c = some ch ∧ k.dropEdge decref c ch.transferTo = .ok k₁ ∧
      (∃ ch₁, k₁.channels.get c = some ch₁) ∧
      k' = k₁.modifyChannel c fun ch => { ch with transferTo := c } := by
  simp only [channelTransferWith, bind_eq_ok, channel_eq_ok, ite_eq_ok, reduceCtorEq, and_false,
    false_or, updateChannel_eq_ok, true_and, not_true_eq_false, false_and, or_false] at h
  obtain ⟨ch, hc, -, -, -, k₁, hk₁, hc₁, rfl⟩ := h
  exact ⟨ch, k₁, hc, hk₁, hc₁, rfl⟩

/-- The transfers that no longer count lead nowhere a release could
follow them to: the channel is being released itself, or its target is,
or its target is the channel `c` that is about to be. -/
def Dropped (E : Finset ChId) (k : Kernel PT) (c : ChId) : Prop :=
  ∀ x ∈ E, ∀ ch, k.channels.get x = some ch → ch.refCount < 1 ∨ ch.transferTo = c ∨
    ∀ ch', k.channels.get ch.transferTo = some ch' → ch'.refCount < 1

/-- What `channel_decref` keeps: the counts, the channels that are being
released by its callers, and that no other is left without a reference. -/
structure GivesUp (E : Finset ChId) (k k' : Kernel PT) : Prop where
  counts : Counts E k'
  frame : ∀ {x ch}, k.channels.get x = some ch → ch.refCount < 1 → k'.channels.get x = some ch
  zero : ∀ {x ch}, k'.channels.get x = some ch → ch.refCount < 1 →
    ∃ ch', k.channels.get x = some ch' ∧ ch'.refCount < 1

theorem channelDecrefFuel_pos (h : channelDecrefFuel fuel k c = .ok k') :
    ∃ ch, k.channels.get c = some ch ∧ 1 ≤ ch.refCount := by
  cases fuel with
  | zero => cases h
  | succ fuel =>
    simp only [channelDecrefFuel, bind_eq_ok, channel_eq_ok, ite_eq_ok, reduceCtorEq, and_false,
      false_or] at h
    obtain ⟨ch, hc, hpos, -⟩ := h
    exact ⟨ch, hc, by omega⟩

/-- Giving up the transfer of a channel. -/
theorem GivesUp.of_dropEdge
    (ih : ∀ {E} {k k' : Kernel PT} {c}, Counts E (k.modifyChannel c decremented) →
      Dropped E k c → channelDecrefFuel fuel k c = .ok k' → GivesUp E k k') (hcounts : Counts E k)
    (hc : k.channels.get c = some ch) (hin : c ∈ E → ch.transferTo ≠ c → ∀ ch',
      k.channels.get ch.transferTo = some ch' → ch'.refCount < 1) (hdropped : ∀ d, Dropped E k d)
    (h : k.dropEdge (channelDecrefFuel fuel) c ch.transferTo = .ok k') :
    GivesUp (insert c E) k k' := by
  unfold dropEdge at h
  split at h
  · rename_i hne
    have hcE : c ∉ E := by
      intro hmem
      obtain ⟨ch', hget, hpos⟩ := channelDecrefFuel_pos h
      have := hin hmem hne ch' hget
      omega
    refine ih (hcounts.decremented_transfer hc hcE hne) (fun x hx chx hget => ?_) h
    rcases mem_insert.mp hx with rfl | hx
    · rw [hc] at hget
      cases hget
      exact .inr (.inl rfl)
    · exact hdropped _ x hx chx hget
  · rename_i hself
    obtain rfl := pure_eq_ok.mp h
    exact ⟨hcounts.insert_of_self hc (not_not.mp hself), fun hx _ => hx, fun hx hlt => ⟨_, hx, hlt⟩⟩

theorem get_decremented (hx : (k.modifyChannel c decremented).channels.get x = some ch) :
    (x = c ∧ ∃ ch₀, k.channels.get c = some ch₀ ∧ ch = decremented ch₀) ∨
      (x ≠ c ∧ k.channels.get x = some ch) := by
  rw [modifyChannel_channels, get_modify] at hx
  split at hx
  · subst x
    obtain ⟨ch₀, hget, rfl⟩ := map_eq_some_iff.mp hx
    exact .inl ⟨rfl, ch₀, hget, rfl⟩
  · rename_i hne
    exact .inr ⟨.symm hne, hx⟩

/-- Once a channel is left without references, every transfer that no
longer counts leads to a channel that is being released. -/
theorem Dropped.decremented (h : Dropped E k c) (hc : k.channels.get c = some ch)
    (h1 : ch.refCount = 1) (d : ChId) : Dropped E (k.modifyChannel c decremented) d := by
  intro x hx chx hget
  have hlow : ∀ {y chy}, (k.modifyChannel c Kernel.decremented).channels.get y = some chy →
      (y ≠ c → ∀ ch', k.channels.get y = some ch' → ch'.refCount < 1) → chy.refCount < 1 := by
    intro y chy hy hlt
    rcases get_decremented hy with ⟨rfl, ch₀, hget₀, rfl⟩ | ⟨hne, hget₀⟩
    · rw [hc] at hget₀
      cases hget₀
      simp only [Kernel.decremented]
      omega
    · exact hlt hne chy hget₀
  rcases get_decremented hget with ⟨rfl, -⟩ | ⟨-, hget₀⟩
  · exact .inl (hlow hget fun hne => absurd rfl hne)
  · rcases h x hx chx hget₀ with hlt | rfl | htarget
    · exact .inl hlt
    · exact .inr (.inr fun ch' hget' => hlow hget' fun hne => absurd rfl hne)
    · exact .inr (.inr fun ch' hget' => hlow hget' fun _ => htarget)

/-- **`channel_decref` keeps the counts.** The induction is on the depth
of nested releases. -/
theorem channelDecrefFuel_givesUp : ∀ {E : Finset ChId} {k k' : Kernel PT} {c : ChId},
    Counts E (k.modifyChannel c decremented) → Dropped E k c →
    channelDecrefFuel fuel k c = .ok k' → GivesUp E k k' := by
  induction fuel with
  | zero =>
    nofun
  | succ fuel ih =>
    intro E k k' c hcounts hdropped h
    simp only [channelDecrefFuel, bind_eq_ok, channel_eq_ok, ite_eq_ok, reduceCtorEq, and_false,
      false_or, pure_eq_ok] at h
    obtain ⟨ch, hc, hpos, h⟩ := h
    have hc₁ : (k.modifyChannel c decremented).channels.get c = some (decremented ch) := by
      simp [hc]
    have hframe : ∀ {x chx}, k.channels.get x = some chx → chx.refCount < 1 →
        (k.modifyChannel c decremented).channels.get x = some chx := by
      intro x chx hx hlt
      rw [modifyChannel_channels, get_modify_of_ne, hx]
      rintro rfl
      rw [hc] at hx
      cases hx
      exact hpos hlt
    rcases h with ⟨hmore, rfl⟩ | ⟨hlast, k₂, hlink, k₃, htransfer, hrelease⟩
    · refine ⟨hcounts, hframe, fun {x chx} hx hlt => ?_⟩
      rcases get_decremented hx with ⟨rfl, ch₀, hget, rfl⟩ | ⟨-, hget⟩
      · rw [hc] at hget
        cases hget
        simp only [decremented] at hlt
        omega
      · exact ⟨chx, hget, hlt⟩
    · have h0 : (decremented ch).refCount < 1 := by
        simp only [decremented]
        omega
      have hlink' : (k.modifyChannel c decremented).channelLinkWith (channelDecrefFuel fuel) c c =
          .ok (k.modifyChannel c decremented) :=
        channelLinkWith_self hc₁ (hcounts.linkedWith_eq_self hc₁ h0)
      obtain rfl : k.modifyChannel c decremented = k₂ :=
        Except.ok.inj (hlink'.symm.trans hlink)
      obtain ⟨ch₁, k₄, hget₁, hdrop, -, rfl⟩ := channelTransferWith_self htransfer
      rw [hc₁] at hget₁
      cases hget₁
      have hdropped' := hdropped.decremented hc (by omega)
      have hgives : GivesUp (insert c E) (k.modifyChannel c decremented) k₄ := by
        refine .of_dropEdge ih hcounts hc₁ (fun hmem hne ch' hget => ?_) hdropped' hdrop
        rcases hdropped c hmem ch hc with hlt | hself | htarget
        · exact absurd hlt hpos
        · exact absurd hself hne
        · rcases get_decremented hget with ⟨heq, -⟩ | ⟨-, hget⟩
          · exact absurd heq hne
          · exact htarget ch' hget
      have hc₄ := hgives.frame hc₁ h0
      obtain ⟨ch₅, hget₅, hch, hpr⟩ := channelRelease_channels hrelease
      obtain rfl : { decremented ch with transferTo := c } = ch₅ := by
        simpa [hc₄] using hget₅
      refine ⟨hgives.counts.free hc₄ h0 (by simpa using hch) (by simpa using hpr),
        fun {x chx} hx hlt => ?_, fun {x chx} hx hlt => ?_⟩
      · have hxc : c ≠ x := by
          rintro rfl
          rw [hc] at hx
          cases hx
          exact hpos hlt
        rw [hch, modifyChannel_channels, free_modify]
        exact get_free_eq_some.2 ⟨hxc, hgives.frame (hframe hx hlt) hlt⟩
      · rw [hch, modifyChannel_channels, free_modify] at hx
        obtain ⟨hne, hx⟩ := get_free_eq_some.1 hx
        obtain ⟨ch', hget, hlt'⟩ := hgives.zero hx hlt
        rcases get_decremented hget with ⟨heq, -⟩ | ⟨-, hget⟩
        · exact absurd heq.symm hne
        · exact ⟨ch', hget, hlt'⟩

/-! ## The operations -/

/-- **The counts between two operations.** -/
structure CountsRefs (k : Kernel PT) : Prop where
  counts : Counts ∅ k
  pos : ∀ {c ch}, k.channels.get c = some ch → 0 < ch.refCount

theorem GivesUp.pos (hk : GivesUp E k k')
    (hpos : ∀ {c ch}, k.channels.get c = some ch → 0 < ch.refCount)
    (hc : k'.channels.get c = some ch) : 0 < ch.refCount := by
  by_contra hlt
  obtain ⟨ch', hget, hlt'⟩ := hk.zero hc (by omega)
  have := hpos hget
  omega

theorem CountsRefs.of_noChannels (h : NoChannels k) : CountsRefs k := by
  have hnone : ∀ c, k.channels.get c = none := by
    intro c
    rw [h.channels, get_empty]
  refine ⟨⟨?_, ?_, ?_, ?_, fun hp hi => absurd hi (h.table hp)⟩, ?_⟩ <;>
  · intro c ch hc
    simp [hnone] at hc

/-- What `table_alloc` finds. -/
theorem tableAlloc_eq_some {t t' : Table} {i : ℕ} (h : tableAlloc t = some (i, t')) :
    t[i]? = some .null ∧ t' = t.set i .reserved := by
  obtain ⟨j, hj, heq⟩ := map_eq_some_iff.mp h
  have hp := List.find?_some hj
  simp only [Bool.and_eq_true, beq_iff_eq, Prod.mk.injEq] at hp heq
  obtain ⟨rfl, rfl⟩ := heq
  exact ⟨hp.2, rfl⟩

/-- What a table holds once a slot has been allocated and set. -/
theorem getElem?_tableSet {t t' : Table} {i j : ℕ} {e : Entry} (h : tableAlloc t = some (i, t')) :
    (tableSet t' i c)[j]? = some e ↔ (j = i ∧ e = .channel c) ∨ (j ≠ i ∧ t[j]? = some e) := by
  obtain ⟨hnull, rfl⟩ := tableAlloc_eq_some h
  have hlt : i < t.length := (List.getElem?_eq_some_iff.mp hnull).1
  unfold tableSet
  by_cases hij : i = j
  · subst hij
    simp [hlt, eq_comm]
  · simp [hij, symm hij]

theorem CountsRefs.channelCreate {p : PrId} {r : Option ChId} (h : CountsRefs k)
    (hk : k.channelCreate p = .ok (k', r)) : CountsRefs k' := by
  obtain ⟨rfl, -⟩ | ⟨pr, cid, table, hpr, halloc, -, hch, -, -, -, -, hprs⟩ :=
    channelCreate_eq_ok hk
  · exact h
  have hget : ∀ {x chx}, k.channels.get x = some chx → k'.channels.get x = some chx := by
    rw [hch]
    exact get_alloc_of_get
  have hcases : ∀ {x chx}, k'.channels.get x = some chx →
      (x = k.channels.size ∧ chx = freshChannel p cid x) ∨ k.channels.get x = some chx := by
    intro x chx hx
    rw [hch, get_alloc] at hx
    split at hx
    · rename_i hxs
      exact .inl ⟨hxs, hxs ▸ (some.inj hx).symm⟩
    · exact .inr hx
  have hnew : k'.channels.get k.channels.size = some (freshChannel p cid k.channels.size) := by
    rw [hch, get_alloc, if_pos rfl]
  -- the new channel has no edge to another one
  have htransferrers : ∀ x, k'.transferrers x = k.transferrers x := by
    intro x
    unfold transferrers
    rw [hch]
    refine filter_alloc_of_not ?_
    by_cases hx : k.channels.size = x <;> simp [freshChannel, hx]
  refine ⟨.of_own (fun {x chx} hx => ?_) (fun {x chx} hx => ?_) (fun {x chx} hx _ => ?_)
    ⟨fun {x chx} hx => ?_, fun {q pr' i x} hq hi => ?_⟩, fun {x chx} hx => ?_⟩
  · rw [htransferrers]
    rcases hcases hx with ⟨rfl, rfl⟩ | hx
    · simp [h.counts.transferrers_eq_empty (get_size k.channels), ownRefs, freshChannel]
    · exact h.counts.own hx
  · rcases hcases hx with ⟨rfl, rfl⟩ | hx
    · exact ⟨_, hnew, rfl⟩
    · obtain ⟨ch', hget', hback⟩ := h.counts.link hx
      exact ⟨ch', hget hget', hback⟩
  · rcases hcases hx with ⟨rfl, rfl⟩ | hx
    · exact ⟨_, hnew⟩
    · obtain ⟨ch', hget'⟩ := h.counts.transfer hx (notMem_empty x)
      exact ⟨ch', hget hget'⟩
  · rw [hprs, get_modify]
    rcases hcases hx with ⟨rfl, rfl⟩ | hx
    · refine ⟨{ pr with
          channels := tableSet table cid k.channels.size,
          channelList := pr.channelList ++ [k.channels.size] }, ?_,
        (getElem?_tableSet halloc).mpr (.inl ⟨rfl, rfl⟩)⟩
      simp only [freshChannel, if_true, hpr, map_some]
    · obtain ⟨prx, hprx, hentry⟩ := h.counts.entries.entry hx
      split
      · rename_i hp
        rw [← hp, hpr] at hprx
        cases hprx
        refine ⟨_, by rw [← hp, hpr]; rfl, (getElem?_tableSet halloc).mpr (.inr ⟨?_, hentry⟩)⟩
        rintro rfl
        simp [(tableAlloc_eq_some halloc).1] at hentry
      · exact ⟨prx, hprx, hentry⟩
  · rw [hprs, get_modify] at hq
    split at hq
    · subst q
      obtain ⟨pr₀, hpr₀, rfl⟩ := map_eq_some_iff.mp hq
      rw [hpr] at hpr₀
      rcases (getElem?_tableSet halloc).mp hi with ⟨rfl, heq⟩ | ⟨-, hi⟩
      · cases heq
        exact ⟨_, hnew, rfl, rfl⟩
      · obtain ⟨chx, hx, hxp, hxi⟩ := h.counts.entries.table hpr hi
        exact ⟨chx, hget hx, hxp, hxi⟩
    · obtain ⟨chx, hx, hxp, hxi⟩ := h.counts.entries.table hq hi
      exact ⟨chx, hget hx, hxp, hxi⟩
  · rcases hcases hx with ⟨rfl, rfl⟩ | hx
    · exact Int.one_pos
    · exact h.pos hx

/-- What the channels read once two of them have been linked. -/
theorem get_linkedTo {chc chd : Channel} (hne : c ≠ d) (hc : k.channels.get c = some chc)
    (hd : k.channels.get d = some chd) :
    ((k.modifyChannel c (linkedTo d)).modifyChannel d (linkedTo c)).channels.get x =
      if x = c then some (linkedTo d chc) else if x = d then some (linkedTo c chd)
      else k.channels.get x := by
  simp only [modifyChannel_channels, get_modify]
  by_cases hxc : x = c
  · simp [hxc, hc, Ne.symm hne]
  · by_cases hxd : x = d
    · simp [hxd, hne, hd, Ne.symm hne]
    · simp [hxc, hxd, symm hxc, symm hxd]

/-- Linking two channels that are not linked keeps links mutual. -/
theorem MutualLinks.linkedTo {chc chd : Channel} (h : MutualLinks k) (hne : c ≠ d)
    (hc : k.channels.get c = some chc) (hlc : chc.linkedWith = c)
    (hd : k.channels.get d = some chd) (hld : chd.linkedWith = d) :
    MutualLinks ((k.modifyChannel c (linkedTo d)).modifyChannel d (linkedTo c)) := by
  intro x chx hx
  rw [get_linkedTo hne hc hd] at hx
  split at hx
  · cases hx
    subst x
    exact ⟨_, (get_linkedTo (x := d) hne hc hd).trans (by rw [if_neg hne.symm, if_pos rfl]), rfl⟩
  · split at hx
    · cases hx
      subst x
      exact ⟨_, (get_linkedTo (x := c) hne hc hd).trans (if_pos rfl), rfl⟩
    · rename_i hxc hxd
      obtain ⟨ch', hget', hback⟩ := h hx
      refine ⟨ch', ?_, hback⟩
      rw [get_linkedTo hne hc hd, if_neg, if_neg, hget']
      · intro heq
        rw [heq, hd] at hget'
        cases hget'
        exact hxd (hback.symm.trans hld)
      · intro heq
        rw [heq, hc] at hget'
        cases hget'
        exact hxc (hback.symm.trans hlc)

/-- **Linking two channels that are not linked keeps the counts.** -/
theorem CountsRefs.channelLink (h : CountsRefs k) (hc : k.Unlinked c) (hd : k.Unlinked d)
    (hk : k.channelLink c d = .ok k') : CountsRefs k' := by
  by_cases hcd : c = d
  · subst hcd
    obtain ⟨ch, hget⟩ : ∃ ch, k.channels.get c = some ch := by
      simp only [Kernel.channelLink, channelLinkWith, if_true, bind_eq_ok, channel_eq_ok] at hk
      exact ⟨_, hk.choose_spec.1⟩
    have hself : k.channelLinkWith channelDecref c c = .ok k :=
      channelLinkWith_self hget (hc ch hget)
    obtain rfl : k = k' := Except.ok.inj (hself.symm.trans hk)
    exact h
  obtain ⟨⟨chc, hgetc⟩, ⟨chd, hgetd⟩, rfl⟩ := channelLinkWith_of_ne hcd hk
  have hlc := hc chc hgetc
  have hld := hd chd hgetd
  have hlink := h.counts.link.linkedTo hcd hgetc hlc hgetd hld
  have hsame : SameEntries k ((k.modifyChannel c (linkedTo d)).modifyChannel d (linkedTo c)) :=
    (SameEntries.modifyChannel (f := linkedTo d) fun _ => ⟨rfl, rfl⟩).trans
      (.modifyChannel (f := linkedTo c) fun _ => ⟨rfl, rfl⟩)
  -- each of the two has one linker more and one reference more
  have hadd : ∀ {x y : ChId} {ch : Channel}, y ≠ x → ch.linkedWith = x →
      ch.refCount ≤ (linkedTo y ch).refCount ∧
      (linkedTo y ch).refCount + ownRefs x ch = ch.refCount + ownRefs x (linkedTo y ch) := by
    intro x y ch hyx hself
    have hown : ownRefs x (linkedTo y ch) = ownRefs x ch + 1 := by
      show (if ch.destructed then 0 else 1) + (if y = x then 0 else 1) = _
      rw [if_neg hyx, ownRefs, if_pos hself]
    have href : (linkedTo y ch).refCount = ch.refCount + 1 := rfl
    omega
  have hcount : ∀ {x chx}, ((k.modifyChannel c (linkedTo d)).modifyChannel d
      (linkedTo c)).channels.get x = some chx → ∃ ch₀, k.channels.get x = some ch₀ ∧
      chx.transferTo = ch₀.transferTo ∧ ch₀.refCount ≤ chx.refCount ∧
      chx.refCount + ownRefs x ch₀ = ch₀.refCount + ownRefs x chx := by
    intro x chx hx
    rw [get_linkedTo hcd hgetc hgetd] at hx
    split at hx
    · subst x
      cases hx
      exact ⟨chc, hgetc, rfl, hadd (Ne.symm hcd) hlc⟩
    · split at hx
      · subst x
        cases hx
        exact ⟨chd, hgetd, rfl, hadd hcd hld⟩
      · exact ⟨chx, hx, rfl, le_rfl, rfl⟩
  refine ⟨.of_own (fun {x chx} hx => ?_) hlink (fun {x chx} hx hxE => ?_)
    (h.counts.entries.of_same hsame), fun {x chx} hx => ?_⟩
  · obtain ⟨ch₀, hget, -, -, hadd⟩ := hcount hx
    have hold := h.counts.own hget
    rw [transferrers_modifyChannel (f := linkedTo c) fun _ => rfl,
      transferrers_modifyChannel (f := linkedTo d) fun _ => rfl]
    omega
  · obtain ⟨ch₀, hget, hto, -⟩ := hcount hx
    obtain ⟨ch₁, hget₁⟩ := h.counts.transfer hget hxE
    obtain ⟨ch', hget', -⟩ := hsame.new hget₁
    exact ⟨ch', hto ▸ hget'⟩
  · obtain ⟨ch₀, hget, -, hle, -⟩ := hcount hx
    exact lt_of_lt_of_le (h.pos hget) hle

/-- The change `channel_transfer` makes to its source. -/
def transferredTo (d : ChId) (ch : Channel) : Channel := { ch with transferTo := d }

theorem mem_transferrers_transferredTo (hc : k.channels.get c = some ch) {y : ChId} :
    y ∈ (k.modifyChannel c (transferredTo d)).transferrers x ↔
      (y = c ∧ c ≠ x ∧ d = x) ∨ (y ≠ c ∧ y ∈ k.transferrers x) := by
  rw [mem_transferrers, mem_transferrers, modifyChannel_channels]
  by_cases hy : y = c
  · subst hy
    simp [hc, transferredTo]
  · rw [get_modify_of_ne _ _ (.symm hy)]
    simp [hy]

/-- A channel that has given up its transfer may forget it. -/
theorem Counts.stopTransfer (h : Counts (insert c E) k) (hc : k.channels.get c = some ch) :
    Counts E (k.modifyChannel c (transferredTo c)) := by
  have hsame : SameEntries k (k.modifyChannel c (transferredTo c)) :=
    .modifyChannel (f := transferredTo c) fun _ => ⟨rfl, rfl⟩
  have htransferrers : ∀ x, (k.modifyChannel c (transferredTo c)).transferrers x \ E =
      k.transferrers x \ insert c E := by
    intro x
    ext y
    simp only [mem_sdiff, mem_transferrers_transferredTo hc, mem_insert, not_or]
    grind
  refine .of_own (fun {x chx} hx => ?_) (h.link.modifyChannel fun _ => rfl)
    (fun {x chx} hx hxE => ?_) (h.entries.of_same hsame)
  · obtain ⟨ch₀, hget, rfl⟩ := get_modify_eq_some.1 hx
    rw [htransferrers, apply_ite_of (f := transferredTo c) (g := Channel.refCount) fun _ => rfl,
      apply_ite_of (f := transferredTo c) (g := ownRefs x) fun _ => rfl, h.own hget]
  · obtain ⟨ch₀, hget, rfl⟩ := get_modify_eq_some.1 hx
    split
    · subst x
      exact ⟨_, hx⟩
    · rename_i hne
      have hxE' : x ∉ insert c E := by
        rw [mem_insert]
        exact not_or.mpr ⟨symm hne, hxE⟩
      obtain ⟨ch₁, hget₁⟩ := h.transfer hget hxE'
      obtain ⟨ch', hget', -⟩ := hsame.new hget₁
      exact ⟨ch', hget'⟩

/-- The change `channel_incref` makes. -/
def incremented (ch : Channel) : Channel := { ch with refCount := ch.refCount + 1 }

/-- What `channel_transfer` does to two different channels. -/
theorem channelTransferWith_of_ne {decref : Kernel PT → ChId → Except Fault (Kernel PT)}
    (hne : c ≠ d) (h : k.channelTransferWith decref c d = .ok k') :
    (∃ ch, k.channels.get c = some ch) ∧ (∃ ch, k.channels.get d = some ch) ∧
      k' = (k.modifyChannel c (transferredTo d)).modifyChannel d incremented := by
  simp only [channelTransferWith, if_neg hne, bind_eq_ok, updateChannel_eq_ok, channelIncref,
    channel_eq_ok, ite_eq_ok, reduceCtorEq, and_false, false_or, pure_eq_ok] at h
  obtain ⟨chc, hc, chd, hd, -, k₁, ⟨-, rfl⟩, ch₂, -, -, rfl⟩ := h
  exact ⟨⟨chc, hc⟩, ⟨chd, hd⟩, rfl⟩

namespace CountsRefs

variable (h : CountsRefs k)

include h

/-- A first transfer adds one reference to its target. -/
theorem startTransfer (hne : c ≠ d) (hc : k.channels.get c = some ch)
    (hself : ch.transferTo = c) (hd : ∃ chd, k.channels.get d = some chd) :
    CountsRefs ((k.modifyChannel c (transferredTo d)).modifyChannel d incremented) := by
  obtain ⟨chd, hd⟩ := hd
  have hsame : SameEntries k ((k.modifyChannel c (transferredTo d)).modifyChannel d incremented) :=
    (SameEntries.modifyChannel (f := transferredTo d) fun _ => ⟨rfl, rfl⟩).trans
      (.modifyChannel (f := incremented) fun _ => ⟨rfl, rfl⟩)
  have hcases : ∀ {x chx}, ((k.modifyChannel c (transferredTo d)).modifyChannel d
      incremented).channels.get x = some chx → ∃ ch₀, k.channels.get x = some ch₀ ∧
      (chx.transferTo = ch₀.transferTo ∨ chx.transferTo = d) ∧
      ((x = d ∧ ownRefs x chx = ownRefs x ch₀ ∧ chx.refCount = ch₀.refCount + 1) ∨
        (x ≠ d ∧ ownRefs x chx = ownRefs x ch₀ ∧ chx.refCount = ch₀.refCount)) := by
    intro x chx hx
    obtain ⟨ch₁, hx₁, rfl⟩ := get_modify_eq_some.1 hx
    obtain ⟨ch₀, hget, rfl⟩ := get_modify_eq_some.1 hx₁
    grind [transferredTo, incremented, ownRefs]
  have hnot : ∀ x, c ∉ k.transferrers x := by
    intro x hmem
    obtain ⟨ch', hc', hcx, hto⟩ := mem_transferrers.mp hmem
    rw [hc] at hc'
    cases hc'
    exact hcx (hself.symm.trans hto)
  refine ⟨.of_own (fun {x chx} hx => ?_)
    ((h.counts.link.modifyChannel (f := transferredTo d) fun _ => rfl).modifyChannel fun _ => rfl)
    (fun {x chx} hx hxE => ?_) (h.counts.entries.of_same hsame), fun {x chx} hx => ?_⟩
  · obtain ⟨ch₀, hget, -, hcount⟩ := hcases hx
    have hold := h.counts.own hget
    rw [transferrers_modifyChannel (f := incremented) fun _ => rfl, sdiff_empty]
    rw [sdiff_empty] at hold
    rcases hcount with ⟨rfl, hown, hcount⟩ | ⟨hxd, hown, hcount⟩
    · have hset : (k.modifyChannel c (transferredTo x)).transferrers x =
          insert c (k.transferrers x) := by
        ext y
        rw [mem_transferrers_transferredTo hc, mem_insert]
        grind
      rw [hset, card_insert_of_notMem (hnot x), hown]
      omega
    · have hset : (k.modifyChannel c (transferredTo d)).transferrers x = k.transferrers x := by
        ext y
        rw [mem_transferrers_transferredTo hc]
        grind
      rw [hset, hown]
      omega
  · obtain ⟨ch₀, hget, hto | hto, -⟩ := hcases hx
    · obtain ⟨ch₁, hget₁⟩ := h.counts.transfer hget hxE
      obtain ⟨ch', hget', -⟩ := hsame.new hget₁
      exact ⟨ch', hto ▸ hget'⟩
    · obtain ⟨ch', hget', -⟩ := hsame.new hd
      exact ⟨ch', hto ▸ hget'⟩
  · obtain ⟨ch₀, hget, -, hcount⟩ := hcases hx
    have hpos := h.pos hget
    omega

/-- **A transfer by a channel that has none, or the end of one, keeps the
counts.** -/
theorem channelTransfer (hc : c = d ∨ k.Untransferred c)
    (hk : k.channelTransfer c d = .ok k') : CountsRefs k' := by
  by_cases hcd : c = d
  · subst hcd
    obtain ⟨ch, k₁, hget, hdrop, ⟨ch₁, hget₁⟩, rfl⟩ := channelTransferWith_self hk
    have hgives : GivesUp (insert c ∅) k k₁ :=
      .of_dropEdge channelDecrefFuel_givesUp h.counts hget (fun hmem => absurd hmem (notMem_empty c))
        (fun _ x hx => absurd hx (notMem_empty x)) hdrop
    refine ⟨.stopTransfer hgives.counts hget₁, fun {x chx} hx => ?_⟩
    obtain ⟨ch₀, hget₀, rfl⟩ := get_modify_eq_some.1 hx
    have hpos := hgives.pos h.pos hget₀
    split
    · exact hpos
    · exact hpos
  · obtain ⟨⟨ch, hget⟩, hd, rfl⟩ := channelTransferWith_of_ne hcd hk
    exact h.startTransfer hcd hget (hc.resolve_left hcd ch hget) hd

/-- **Closing a channel for the first time gives up the table's
reference.** -/
theorem channelDestroy (hc : ∀ ch ∈ k.channels.get c, ch.destructed = false)
    (hk : k.channelDestroy c = .ok k') : CountsRefs k' := by
  obtain ⟨k₁, hk₁, hdecref⟩ := bind_eq_ok.mp hk
  obtain ⟨⟨ch, hget⟩, rfl⟩ := updateChannel_eq_ok.mp hk₁
  set closed : Channel → Channel := fun ch => { ch with destructed := true } with hclosed
  have hmod : (k.modifyChannel c closed).modifyChannel c decremented =
      k.modifyChannel c (decremented ∘ closed) := by
    simp only [modifyChannel, modify_modify]
  have hcounts : Counts ∅ ((k.modifyChannel c closed).modifyChannel c decremented) := by
    rw [hmod]
    refine h.counts.modifyChannel (fun _ => ⟨rfl, rfl⟩) (fun _ => rfl) (fun _ => rfl) subset_rfl
      fun {x chx} hx => ?_
    obtain ⟨ch₀, hget₀, rfl⟩ := get_modify_eq_some.1 hx
    have hown := h.counts.own hget₀
    split
    · subst x
      have hopen := hc ch₀ hget₀
      simp only [Function.comp_apply, decremented, hclosed, ownRefs, hopen] at hown ⊢
      simp only [Bool.false_eq_true, if_false, if_true] at hown ⊢
      omega
    · exact hown
  have hgives := channelDecrefFuel_givesUp hcounts (fun x hx => absurd hx (notMem_empty x)) hdecref
  refine ⟨hgives.counts, hgives.pos fun {x chx} hx => ?_⟩
  obtain ⟨ch₀, hget₀, rfl⟩ := get_modify_eq_some.1 hx
  rw [apply_ite_of (f := closed) (g := Channel.refCount) fun _ => rfl]
  exact h.pos hget₀

theorem congr (hch : k'.channels = k.channels) (hpr : k'.processes = k.processes) :
    CountsRefs k' :=
  ⟨h.counts.congr hch hpr, fun hx => h.pos (hch ▸ hx)⟩

theorem sysClose {cid : ℤ} (hc : ∀ found ∈ (k.lookup cid).toOption, k.Unclosed found)
    (hk : k.sysClose cid = .ok k') : CountsRefs k' := by
  obtain ⟨found, hfound, hrest⟩ := bind_eq_ok.mp hk
  cases found with
  | none =>
    obtain rfl := pure_eq_ok.mp hrest
    exact h.congr rfl rfl
  | some c =>
    obtain ⟨k₁, hk₁, hret⟩ := bind_eq_ok.mp hrest
    obtain rfl := pure_eq_ok.mp hret
    have hopen : k.Unclosed (some c) := hc _ (by rw [hfound]; rfl)
    exact (h.channelDestroy (hopen c rfl) hk₁).congr rfl rfl

/-- **Every operation that keeps the edges keeps the counts.** -/
theorem step {op : ChannelOp} (hop : k.KeepsEdges op)
    (hk : (channelMachine PT).step k op = some k') : CountsRefs k' := by
  have hk : k.channelOp op = .ok k' := eq_ok_of_toOption hk
  cases op with
  | create p =>
    obtain ⟨⟨k₁, r⟩, hk₁, hret⟩ := bind_eq_ok.mp hk
    obtain rfl := pure_eq_ok.mp hret
    exact h.channelCreate hk₁
  | link c d => exact h.channelLink hop.1 hop.2 hk
  | transfer c d => exact h.channelTransfer hop hk
  | incref c => exact hop.elim
  | close t cid =>
    have hcur : CountsRefs { k with current := t } := h.congr rfl rfl
    exact hcur.sysClose hop hk

end CountsRefs

/-- **Counts along runs.** While no operation overwrites an edge, closes
a channel twice or takes a reference on the side, the count of every
channel is the number of references to it, a channel is there exactly
while there are references to it, and the tables hold exactly the
channels that are there. -/
theorem refCount_eq_refs {k₀ k : Kernel PT} (h₀ : NoChannels k₀)
    (h : (channelMachine PT).ReachUnder KeepsEdges k₀ k) (c : ChId) :
    (∀ ch, k.channels.get c = some ch → ch.refCount = k.refs c) ∧
      ((∃ ch, k.channels.get c = some ch) ↔ 0 < k.refs c) ∧
      ((∃ p pr, ∃ i : ℕ, k.processes.get p = some pr ∧ pr.channels[i]? = some (.channel c)) ↔
        ∃ ch, k.channels.get c = some ch) := by
  have hinv : CountsRefs k :=
    h.invariant (.of_noChannels h₀) fun hI hop hs => hI.step hop hs
  have hcount : ∀ ch, k.channels.get c = some ch → ch.refCount = k.refs c := by
    intro ch hc
    rw [hinv.counts.count hc, refs, sdiff_empty]
    rfl
  refine ⟨hcount, ⟨?_, ?_⟩, ?_, ?_⟩
  · rintro ⟨ch, hc⟩
    have hpos := hinv.pos hc
    rw [hcount ch hc] at hpos
    omega
  · intro hpos
    by_contra hnone
    have hnone : k.channels.get c = none :=
      eq_none_iff_forall_ne_some.mpr fun ch hc => hnone ⟨ch, hc⟩
    rw [hinv.counts.refs_eq_zero hnone] at hpos
    exact absurd hpos (lt_irrefl 0)
  · rintro ⟨p, pr, i, hp, hi⟩
    obtain ⟨ch, hc, -⟩ := hinv.counts.entries.table hp hi
    exact ⟨ch, hc⟩
  · rintro ⟨ch, hc⟩
    obtain ⟨pr, hp, hi⟩ := hinv.counts.entries.entry hc
    exact ⟨ch.process, pr, ch.cid, hp, hi⟩

/-- A kernel with one process, one thread of it, and no channels. -/
def oneProcess : Kernel Unit where
  channels := Heap.empty
  threads := ⟨[some
    { process := 0, blocked := false, abortReason := .ok, blockedOn := none,
      inKernelBuffer := false, userBuffer := ⟨0, 0, 0, 0, 0, []⟩,
      kernelBuffer := ⟨0, 0, 0, 0, 0, []⟩, pageBase := 0, kstack := [], ret := .ok }]⟩
  processes := ⟨[some { channels := List.replicate 5 .null, channelList := [], pageTable := () }]⟩
  runqueue := []
  current := 0
  idle := 0

theorem noChannels_oneProcess : NoChannels oneProcess where
  channels := rfl
  table {p pr i c} hp hi := by
    cases p with
    | zero =>
      obtain rfl : _ = pr := Option.some.inj hp
      have := List.mem_of_getElem? hi
      simp at this
    | succ p => simp [oneProcess, Heap.get] at hp

/-- Three channels, of which the first transfers to the third and is
closed, which gives the transfer up; the other two are then linked. -/
theorem refCount_eq_refs_oneProcess :
    ∃ k, (channelMachine Unit).ReachUnder KeepsEdges oneProcess k ∧
    k.channels.get 0 = none ∧ ∃ ch, k.channels.get 2 = some ch ∧ ch.refCount = k.refs 2 := by
  obtain ⟨k, hreach, h0, h2⟩ : ∃ k, (channelMachine Unit).ReachUnder KeepsEdges oneProcess k ∧
      k.channels.get 0 = none ∧ (k.channels.get 2).isSome :=
    Machine.exists_reachUnder
      [.create 0, .create 0, .create 0, .transfer 0 2, .close 0 1, .link 1 2] (by decide +kernel)
  obtain ⟨ch, h2⟩ := isSome_iff_exists.1 h2
  exact ⟨k, hreach, h0, ch, h2, (refCount_eq_refs noChannels_oneProcess hreach 2).1 ch h2⟩

/-- **Linking again does not give the old link up.** Channel 0 is linked
with 1 and then with 2: the count of 1 stays at two, though only its
table entry refers to it. -/
theorem refCount_ne_refs_of_relink : ∃ k, (channelMachine Unit).Reach oneProcess k ∧
    ∃ ch, k.channels.get 1 = some ch ∧ ch.refCount ≠ k.refs 1 := by
  have hrun : ∃ k, (channelMachine Unit).Reach oneProcess k ∧
      ∃ ch ∈ k.channels.get 1, ch.refCount ≠ k.refs 1 :=
    Machine.exists_reachUnder [.create 0, .create 0, .create 0, .link 0 1, .link 0 2]
      (by decide +kernel)
  exact hrun

/-- **No reference dangles.** Along such runs links are mutual, the table
entries are the channels that are there, and what a channel transfers to
is there. -/
theorem live_refs_of_keepsEdges {k₀ k : Kernel PT} (h₀ : NoChannels k₀)
    (h : (channelMachine PT).ReachUnder KeepsEdges k₀ k) :
    MutualLinks k ∧ Entries k ∧
      ∀ c ch, k.channels.get c = some ch → (k.channels.get ch.transferTo).isSome := by
  have hinv : CountsRefs k :=
    h.invariant (.of_noChannels h₀) fun hI hop hs => hI.step hop hs
  refine ⟨hinv.counts.link, hinv.counts.entries, fun c ch hc => ?_⟩
  exact isSome_iff_exists.2 (hinv.counts.transfer hc (notMem_empty c))

/-- One of three channels transfers to another, which is linked. -/
theorem live_refs_oneProcess : ∃ k, (channelMachine Unit).ReachUnder KeepsEdges oneProcess k ∧
    (k.channels.get 0).isSome ∧ MutualLinks k := by
  obtain ⟨k, h, h0⟩ : ∃ k, (channelMachine Unit).ReachUnder KeepsEdges oneProcess k ∧
      (k.channels.get 0).isSome :=
    Machine.exists_reachUnder [.create 0, .create 0, .create 0, .transfer 0 2, .link 1 2]
      (by decide +kernel)
  exact ⟨k, h, h0, (live_refs_of_keepsEdges noChannels_oneProcess h).1⟩

end Archives.Resea.Kernel
