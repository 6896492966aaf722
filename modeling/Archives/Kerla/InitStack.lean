import Mathlib.Algebra.Ring.Nat
import Archives.Common.Traverse
import Archives.Kerla.Model.InitStack
/-!
# Kerla — what a program finds on its stack

A push after another is one push of more bytes (`pushBytes_bind`), so the
tables are one push and the vectors another. A push puts its bytes below
those that are there (`Pushes`), and a pointer that was recorded on the
way still leads to the same bytes at the end (`PointsTo`). The pointers
are pushed in the order in which they were recorded and read in the
opposite one. The arguments were recorded last to first and are found in
their order; the environment was recorded first to last, and the program
finds it reversed.
-/

namespace Archives.Kerla

open LittleEndian List Nat Option Prod Auxv Cells

namespace InitStack

variable {r : StackRegion} {s s' s'' : InitStack} {a b buf content : Bytes}
  {ptrs argvPtrs envpPtrs auxvPtrs : List Nat} {ptr : Nat} {auxv : List Auxv}
  {strs argv envp : List Bytes}

/-! ## One push after the other -/

/-- **What follows a push, and is one itself, makes it a longer one.** -/
theorem pushBytes_bind {f : InitStack → Except ExecError InitStack}
    (hf : ∀ t : InitStack, r.bottom ≤ t.sp → f t = pushBytesToStack r b t) :
    pushBytesToStack r a s >>= f = pushBytesToStack r (b ++ a) s := by
  by_cases ha : s.sp < r.bottom + a.length
  · rw [pushBytesToStack, if_pos ha, pushBytesToStack, if_pos (by rw [length_append]; omega)]
    rfl
  · have hsum : s.sp - (b.length + a.length) = s.sp - a.length - b.length := by omega
    rw [pushBytesToStack, if_neg ha, ok_bind, hf _ (show r.bottom ≤ s.sp - a.length by omega),
      pushBytesToStack, pushBytesToStack, length_append, hsum, ← write_append]
    by_cases hb : s.sp - a.length < r.bottom + b.length
    · rw [if_pos hb, if_pos (by omega)]
    · rw [if_neg hb, if_neg (by omega), Nat.sub_add_cancel (by omega)]

theorem pushWords_bind {vs ws : List Nat} {f : InitStack → Except ExecError InitStack}
    (hf : ∀ t : InitStack, r.bottom ≤ t.sp → f t = pushBytesToStack r (encodeAll usizeLen vs) t) :
    pushBytesToStack r (encodeAll usizeLen ws) s >>= f =
      pushBytesToStack r (encodeAll usizeLen (vs ++ ws)) s := by
  rw [encodeAll_append]
  exact pushBytes_bind hf

theorem pushBytes_nil (hs : r.bottom ≤ s.sp) : pushBytesToStack r [] s = .ok s := by
  rw [pushBytesToStack, write_nil]
  exact if_neg (not_lt.2 hs)

theorem pushUsize_eq (value : Nat) (s : InitStack) :
    pushUsizeToStack r value s = pushBytesToStack r (encodeAll usizeLen [value]) s := rfl

/-- Words that are pushed one after the other are read in the opposite
order. -/
theorem pushPtrs_eq (hs : r.bottom ≤ s.sp) :
    pushPtrs r ptrs s = pushBytesToStack r (encodeAll usizeLen ptrs.reverse) s := by
  induction ptrs generalizing s with
  | nil => exact (pushBytes_nil hs).symm
  | cons ptr ptrs ih =>
    rw [pushPtrs, pushUsize_eq, reverse_cons]
    exact pushWords_bind fun t ht => ih ht

/-- The two words of an entry of the auxiliary vector. -/
def entryWords (entry : Nat × Nat) : List Nat := [entry.1, entry.2]

theorem pushAuxvEntry_eq (auxv : Auxv) (ptr : Nat) (s : InitStack) :
    pushAuxvEntryToStack r auxv ptr s =
      pushBytesToStack r (encodeAll usizeLen (entryWords (auxv.entry ptr))) s := by
  show pushUsizeToStack r _ s >>= _ =
    pushBytesToStack r (encodeAll usizeLen ([(auxv.entry ptr).1] ++ [(auxv.entry ptr).2])) s
  rw [pushUsize_eq]
  exact pushWords_bind fun t _ => pushUsize_eq _ t

def entriesWords (ptr : Nat) (auxv : List Auxv) : List Nat :=
  auxv.flatMap fun a => entryWords (a.entry ptr)

/-- The words of entries that are pushed one after the other. -/
def pushedWords (entries : List (Auxv × Nat)) : List Nat :=
  entries.reverse.flatMap fun e => entryWords (e.1.entry e.2)

theorem pushAuxvEntries_eq {entries : List (Auxv × Nat)} (hs : r.bottom ≤ s.sp) :
    pushAuxvEntries r entries s =
      pushBytesToStack r (encodeAll usizeLen (pushedWords entries)) s := by
  induction entries generalizing s with
  | nil => exact (pushBytes_nil hs).symm
  | cons entry entries ih =>
    rw [pushAuxvEntries, pushAuxvEntry_eq, pushedWords, reverse_cons, flatMap_append,
      flatMap_singleton]
    exact pushWords_bind fun t ht => ih ht

/-- **The vectors are one push**, below the next word. -/
theorem pushVectors_eq (argc : Nat) : pushVectors r argc argvPtrs envpPtrs auxvPtrs auxv s =
      pushBytesToStack r (encodeAll usizeLen (argc :: (argvPtrs.reverse ++ 0 ::
        (envpPtrs.reverse ++ 0 :: (pushedWords (auxv.zip auxvPtrs) ++ [0, 0])))))
        { s with sp := alignDown s.sp usizeLen } := by
  have hwords : argc :: (argvPtrs.reverse ++ 0 :: (envpPtrs.reverse ++ 0 ::
      (pushedWords (auxv.zip auxvPtrs) ++ [0, 0]))) =
      [argc] ++ argvPtrs.reverse ++ [0] ++ envpPtrs.reverse ++ [0] ++
        pushedWords (auxv.zip auxvPtrs) ++ entryWords (null.entry 0) := by
    simp [entryWords, entry]
  rw [hwords, pushVectors, pushAuxvEntry_eq]
  refine pushWords_bind fun s₁ h₁ => ?_
  rw [pushAuxvEntries_eq h₁]
  refine pushWords_bind fun s₂ _ => ?_
  rw [pushUsize_eq]
  refine pushWords_bind fun s₃ h₃ => ?_
  rw [pushPtrs_eq h₃]
  refine pushWords_bind fun s₄ _ => ?_
  rw [pushUsize_eq]
  refine pushWords_bind fun s₅ h₅ => ?_
  rw [pushPtrs_eq h₅]
  exact pushWords_bind fun s₆ _ => pushUsize_eq argc s₆

/-- A string table, from the string that was pushed last. -/
def table (strs : List Bytes) : Bytes := strs.reverse.flatMap (· ++ [0])

/-- Pushes that give pointers besides. -/
theorem push_bind {α β : Type} {m : Except ExecError (α × InitStack)}
    {f : α × InitStack → Except ExecError (β × InitStack)} (hm : m.map snd = pushBytesToStack r a s)
    (hf : ∀ x : α × InitStack, r.bottom ≤ x.2.sp → (f x).map snd = pushBytesToStack r b x.2) :
    (m >>= f).map snd = pushBytesToStack r (b ++ a) s := by
  rw [← pushBytes_bind (f := pushBytesToStack r b) fun _ _ => rfl, map_bind, ← hm]
  cases m with
  | error e => rfl
  | ok x =>
    refine hf x ?_
    rcases ite_eq_ok.1 hm.symm with ⟨-, h⟩ | ⟨hroom, h⟩
    · cases h
    · rw [← Except.ok.inj h]
      show r.bottom ≤ s.sp - a.length
      omega

theorem pushStrings_eq (hs : r.bottom ≤ s.sp) :
    (pushStrings r strs s).map snd = pushBytesToStack r (table strs) s := by
  induction strs generalizing s with
  | nil => exact (pushBytes_nil hs).symm
  | cons str strs ih =>
    have htable : table (str :: strs) = table strs ++ str ++ [0] := by simp [table]
    rw [pushStrings, map_bind, htable]
    refine pushBytes_bind fun t _ => ?_
    rw [map_bind]
    refine pushBytes_bind fun u hu => ?_
    exact push_bind (b := []) (ih hu) fun x hx => (pushBytes_nil hx).symm

theorem pushAuxDataToStack_eq (a : Auxv) (hs : r.bottom ≤ s.sp) :
    pushAuxDataToStack r a s = pushBytesToStack r a.data s := by
  cases a with
  | random values => rfl
  | _ => exact (pushBytes_nil hs).symm

theorem pushAuxData_eq (hs : r.bottom ≤ s.sp) : (pushAuxData r auxv s).map snd =
      pushBytesToStack r (auxv.reverse.flatMap data) s := by
  induction auxv generalizing s with
  | nil => exact (pushBytes_nil hs).symm
  | cons a auxv ih =>
    rw [reverse_cons, flatMap_append, flatMap_singleton, pushAuxData, map_bind,
      pushAuxDataToStack_eq a hs]
    refine pushBytes_bind fun t ht => ?_
    exact push_bind (b := []) (ih ht) fun x hx => (pushBytes_nil hx).symm

/-- **The tables are one push.** -/
theorem pushTables_eq (hs : r.bottom ≤ s.sp) :
    (pushTables r argv envp auxv s).map snd = pushBytesToStack r
      (table argv.reverse ++ table envp ++ auxv.reverse.reverse.flatMap data) s := by
  refine push_bind (pushAuxData_eq hs) fun x hx => push_bind (pushStrings_eq hx) fun y hy => ?_
  exact push_bind (b := []) (pushStrings_eq hy) fun z hz => (pushBytes_nil hz).symm

/-! ## What a push leaves -/

/-- The bytes from the stack pointer to the top. -/
def bytes (r : StackRegion) (s : InitStack) : Bytes := slice s.mem s.sp (r.top - s.sp)

@[simp] theorem length_bytes : (s.bytes r).length = r.top - s.sp := length_slice

/-- The stack grew by some bytes. -/
structure Pushes (r : StackRegion) (s : InitStack) (added : Bytes) (s' : InitStack) : Prop where
  sp : s'.sp + added.length = s.sp
  bytes : s'.bytes r = added ++ s.bytes r

namespace Pushes

theorem trans (h : Pushes r s a s') (h' : Pushes r s' b s'') : Pushes r s (b ++ a) s'' := by
  refine ⟨?_, ?_⟩
  · have := h.sp
    have := h'.sp
    rw [length_append]
    omega
  · rw [h'.bytes, h.bytes, append_assoc]

/-- The stack pointer only goes down. -/
theorem le (h : Pushes r s a s') : s'.sp ≤ s.sp := by
  have := h.sp
  omega

/-- Lowering the stack pointer leaves bytes that were not written. -/
theorem of_lower {sp : Nat} (hs : s.sp ≤ r.top) (hsp : sp ≤ s.sp) :
    Pushes r s (slice s.mem sp (s.sp - sp)) { s with sp := sp } := by
  refine ⟨?_, ?_⟩
  · rw [length_slice]
    exact Nat.add_sub_cancel' hsp
  · have hlen : r.top - sp = (s.sp - sp) + (r.top - s.sp) := by omega
    have hmid : sp + (s.sp - sp) = s.sp := by omega
    rw [InitStack.bytes, hlen, slice_add, hmid]
    rfl

end Pushes

/-- **A push puts its bytes below the others**, and stays above the
bottom. -/
theorem pushes_of_pushBytes (hs : s.sp ≤ r.top) (h : pushBytesToStack r buf s = .ok s') :
    Pushes r s buf s' ∧ r.bottom ≤ s'.sp := by
  rw [pushBytesToStack] at h
  split at h
  · cases h
  · cases h
    have hlen : r.top - (s.sp - buf.length) = buf.length + (r.top - s.sp) := by omega
    have hmid : s.sp - buf.length + buf.length = s.sp := by omega
    refine ⟨⟨hmid, ?_⟩, ?_⟩
    · rw [bytes, hlen, slice_write_append, hmid]
      rfl
    · show r.bottom ≤ s.sp - buf.length
      omega

/-! ## What is not written -/

/-- Nothing outside the pages of the stack is written, and the stack does
not grow upwards. -/
structure StaysIn (r : StackRegion) (s s' : InitStack) : Prop where
  le : s'.sp ≤ s.sp
  outside : ∀ a, a < r.bottom ∨ r.top ≤ a → s'.mem a = s.mem a

theorem StaysIn.trans (h : StaysIn r s s') (h' : StaysIn r s' s'') : StaysIn r s s'' :=
  ⟨le_trans h'.le h.le, fun a ha => (h'.outside a ha).trans (h.outside a ha)⟩

theorem staysIn_of_pushBytes (hs : s.sp ≤ r.top) (h : pushBytesToStack r buf s = .ok s') :
    StaysIn r s s' := by
  rw [pushBytesToStack] at h
  split at h
  · cases h
  · cases h
    refine ⟨sub_le _ _, fun a ha => ?_⟩
    rcases ha with ha | ha
    · exact write_of_lt (by omega)
    · exact write_of_ge (by omega)

/-- **Only the pages of the stack are written.** -/
theorem initUserStack_outside {mem mem' : Nat → UInt8} {usp a : Nat}
    (h : initUserStack r argv envp auxv mem = .ok (usp, mem')) (ha : a < r.bottom ∨ r.top ≤ a) :
    mem' a = mem a := by
  obtain ⟨⟨ptrs, s⟩, htables, h⟩ := bind_eq_ok.1 h
  obtain ⟨s', hvectors, h⟩ := bind_eq_ok.1 h
  cases h
  have hpush := congrArg (Except.map snd) htables
  rw [pushTables_eq r.bottom_le] at hpush
  rw [pushVectors_eq] at hvectors
  have htable := staysIn_of_pushBytes (le_refl r.top) hpush
  have hdown : StaysIn r s { s with sp := alignDown s.sp usizeLen } :=
    ⟨sub_le _ _, fun _ _ => rfl⟩
  have hvector := staysIn_of_pushBytes (le_trans hdown.le htable.le) hvectors
  exact ((htable.trans hdown).trans hvector).outside a ha

/-! ## Pointers -/

/-- A user's pointer into some bytes that end at the top of the stack. -/
def PointsTo (r : StackRegion) (bs : Bytes) (ptr : Nat) (content : Bytes) : Prop :=
  ∃ pre post, bs = pre ++ (content ++ post) ∧ ptr + (content ++ post).length = r.userTop

/-- A pointer stays good while the stack grows. -/
theorem PointsTo.append_left {bs : Bytes} (h : PointsTo r bs ptr content) (added : Bytes) :
    PointsTo r (added ++ bs) ptr content := by
  obtain ⟨pre, post, rfl, hptr⟩ := h
  exact ⟨added ++ pre, post, (append_assoc ..).symm, hptr⟩

theorem PointsTo.of_pushes (h : PointsTo r (s.bytes r) ptr content) (hpush : Pushes r s a s') :
    PointsTo r (s'.bytes r) ptr content := by
  rw [hpush.bytes]
  exact h.append_left a

/-- The stack pointer itself leads to what was pushed last. -/
theorem pointsTo_sp {post : Bytes} (hsp : r.bottom ≤ s.sp) (h : s.bytes r = content ++ post) :
    PointsTo r (s.bytes r) (kernelSpToUserSp r s.sp) content := by
  refine ⟨[], post, h, ?_⟩
  have hroom := r.room
  rw [← h, length_bytes, kernelSpToUserSp]
  omega

/-- Pointers that lead to strings and a NUL. -/
def PointToAll (r : StackRegion) (bs : Bytes) (strs : List Bytes) (ptrs : List Nat) : Prop :=
  List.Forall₂ (fun str ptr => PointsTo r bs ptr (str ++ [0])) strs ptrs

theorem PointToAll.of_pushes (h : PointToAll r (s.bytes r) strs ptrs) (hpush : Pushes r s a s') :
    PointToAll r (s'.bytes r) strs ptrs :=
  h.imp fun _ _ hp => hp.of_pushes hpush

/-- A string table is pushed. -/
theorem pushes_of_pushStrings (hbot : r.bottom ≤ s.sp) (hs : s.sp ≤ r.top)
    (h : pushStrings r strs s = .ok (ptrs, s')) :
    Pushes r s (table strs) s' ∧ r.bottom ≤ s'.sp := by
  refine pushes_of_pushBytes hs ?_
  rw [← pushStrings_eq hbot, h]
  rfl

/-- **Every pointer leads to its string and a NUL.** -/
theorem pointsTo_of_pushStrings (hs : s.sp ≤ r.top) (h : pushStrings r strs s = .ok (ptrs, s')) :
    PointToAll r (s'.bytes r) strs ptrs := by
  induction strs generalizing s ptrs with
  | nil =>
    cases h
    exact .nil
  | cons str strs ih =>
    obtain ⟨t, ht, h⟩ := bind_eq_ok.1 h
    obtain ⟨u, hu, h⟩ := bind_eq_ok.1 h
    obtain ⟨⟨rest, v⟩, hv, h⟩ := bind_eq_ok.1 h
    cases h
    obtain ⟨hnul, -⟩ := pushes_of_pushBytes hs ht
    obtain ⟨hstr, hbot⟩ := pushes_of_pushBytes (le_trans hnul.le hs) hu
    have hle := le_trans hstr.le (le_trans hnul.le hs)
    have hptr := pointsTo_sp hbot (hnul.trans hstr).bytes
    exact .cons (hptr.of_pushes (pushes_of_pushStrings hbot hle hv).1) (ih hle hv)

/-- Entries without data leave the stack as it is. -/
theorem pushAuxData_of_not_random (h : ∀ a ∈ auxv, a.isRandom = false) :
    pushAuxData r auxv s = .ok (.replicate auxv.length (kernelSpToUserSp r s.sp), s) := by
  induction auxv with
  | nil => rfl
  | cons a auxv ih =>
    have ha : pushAuxDataToStack r a s = .ok s := by
      rw [pushAuxDataToStack, h a mem_cons_self]
      rfl
    rw [pushAuxData, ha, ok_bind, ih fun a' ha' => h a' (mem_cons_of_mem a ha'), ok_bind]
    rfl

/-- **The data pointer leads to the random bytes.** They are pushed first
and nothing after them has data, so every entry gets the same pointer. -/
theorem pushes_of_pushAuxData {values : { bytes : Bytes // bytes.length = 16 }} (hs : s.sp ≤ r.top)
    (hauxv : ∀ a ∈ auxv, a.isRandom = false)
    (h : pushAuxData r (auxv ++ [random values]).reverse s = .ok (ptrs, s')) :
    ∃ ptr, ptrs = replicate (auxv ++ [random values]).length ptr ∧
      Pushes r s values s' ∧ r.bottom ≤ s'.sp ∧ PointsTo r (s'.bytes r) ptr values := by
  rw [reverse_append, reverse_singleton, singleton_append] at h
  obtain ⟨t, ht, h⟩ := bind_eq_ok.1 h
  rw [pushAuxData_of_not_random fun a ha => hauxv a (mem_reverse.1 ha), ok_bind] at h
  cases h
  obtain ⟨hpush, hbot⟩ := pushes_of_pushBytes hs ht
  refine ⟨_, ?_, hpush, hbot, pointsTo_sp hbot hpush.bytes⟩
  rw [length_append, length_reverse]
  rfl

/-! ## The vectors -/

/-- The words of the vectors, from the stack pointer up. -/
def vectorWords (argc : Nat) (argvPtrs envpPtrs : List Nat) (ptr : Nat) (auxv : List Auxv) :
    List Nat :=
  argc :: (argvPtrs ++ 0 :: (envpPtrs ++ 0 :: (entriesWords ptr auxv ++ [0, 0])))

theorem zip_replicate : auxv.zip (.replicate auxv.length ptr) = auxv.map fun a => (a, ptr) := by
  rw [← map_const', map_prod_left_eq_zip]

/-- **The vectors are read backwards**: all of them are pushed in the
order of the lists they are made from. -/
theorem pushes_of_pushVectors {argc : Nat} (hs : s.sp ≤ r.top)
    (h : pushVectors r argc argvPtrs envpPtrs (.replicate auxv.length ptr) auxv s = .ok s') :
    (∃ pad, Pushes r s (encodeAll usizeLen
      (vectorWords argc argvPtrs.reverse envpPtrs.reverse ptr auxv.reverse) ++ pad) s') ∧
        r.bottom ≤ s'.sp := by
  have hwords : pushedWords (auxv.map fun a => (a, ptr)) = entriesWords ptr auxv.reverse := by
    rw [pushedWords, ← map_reverse, flatMap_map]
    rfl
  rw [pushVectors_eq, zip_replicate, hwords] at h
  have hdown : alignDown s.sp usizeLen ≤ s.sp := sub_le _ _
  obtain ⟨hpush, hbot⟩ := pushes_of_pushBytes (le_trans hdown hs) h
  exact ⟨⟨_, (Pushes.of_lower hs hdown).trans hpush⟩, hbot⟩

/-- **The tables and the pointers to them**, in the order in which the
pointers will be read. -/
theorem pointsTo_of_pushTables {values : { bytes : Bytes // bytes.length = 16 }} (hs : s.sp ≤ r.top)
    (hauxv : ∀ a ∈ auxv, a.isRandom = false)
    (h : pushTables r argv envp (auxv ++ [.random values]) s =
      .ok ((argvPtrs, envpPtrs, auxvPtrs), s')) :
    s'.sp ≤ s.sp ∧ PointToAll r (s'.bytes r) argv argvPtrs.reverse ∧
      PointToAll r (s'.bytes r) envp.reverse envpPtrs.reverse ∧
      ∃ ptr, auxvPtrs = replicate (auxv ++ [random values]).length ptr ∧
        PointsTo r (s'.bytes r) ptr values := by
  obtain ⟨⟨ptrs₁, s₁⟩, h₁, h⟩ := bind_eq_ok.1 h
  obtain ⟨⟨ptrs₂, s₂⟩, h₂, h⟩ := bind_eq_ok.1 h
  obtain ⟨⟨ptrs₃, s₃⟩, h₃, h⟩ := bind_eq_ok.1 h
  cases h
  obtain ⟨ptr, hptrs, hdata, hbot₁, hptr⟩ := pushes_of_pushAuxData hs hauxv h₁
  have hle₁ := le_trans hdata.le hs
  obtain ⟨hadded₂, hbot₂⟩ := pushes_of_pushStrings hbot₁ hle₁ h₂
  have henvp := pointsTo_of_pushStrings hle₁ h₂
  have hle₂ := le_trans hadded₂.le hle₁
  obtain ⟨hadded₃, -⟩ := pushes_of_pushStrings hbot₂ hle₂ h₃
  have hargv := pointsTo_of_pushStrings hle₂ h₃
  have hle : s'.sp ≤ s.sp := le_trans hadded₃.le (le_trans hadded₂.le hdata.le)
  refine ⟨hle, ?_, ?_, ptr, hptrs, (hptr.of_pushes hadded₂).of_pushes hadded₃⟩
  · rw [← reverse_reverse argv]
    exact forall₂_reverse_iff.2 hargv
  · exact forall₂_reverse_iff.2 (henvp.of_pushes hadded₃)

/-! ## The room a stack takes -/

theorem pushBytes_ok (h : r.bottom + buf.length ≤ s.sp) :
    ∃ s', pushBytesToStack r buf s = .ok s' ∧ s'.sp + buf.length = s.sp := by
  refine ⟨_, if_neg (by omega), ?_⟩
  show s.sp - buf.length + buf.length = s.sp
  omega

theorem tableLen_eq (strs : List Bytes) :
    tableLen strs = (strs.map fun str => str.length + 1).sum := by
  rw [sum_eq_foldl, foldl_map]
  rfl

theorem length_table (strs : List Bytes) : (table strs).length = tableLen strs := by
  rw [tableLen_eq, table, length_flatMap, map_reverse, sum_reverse]
  simp only [length_append, length_singleton]

/-- The length of the data of an auxiliary vector. -/
def auxDataLen (auxv : List Auxv) : Nat :=
  auxv.foldl (fun l aux => l + if aux.isRandom then 16 else 0) 0

theorem auxDataLen_eq (auxv : List Auxv) :
    auxDataLen auxv = (auxv.map fun aux => aux.data.length).sum := by
  have hdata (a : Auxv) : a.data.length = if a.isRandom then 16 else 0 := by
    cases a with
    | random values => exact values.2
    | _ => rfl
  rw [sum_eq_foldl, foldl_map]
  simp only [hdata]
  rfl

/-- The data are whole words. -/
theorem auxDataLen_mod (auxv : List Auxv) : auxDataLen auxv % usizeLen = 0 := by
  rw [auxDataLen_eq]
  induction auxv with
  | nil => rfl
  | cons a auxv ih =>
    have hdata : a.data.length % usizeLen = 0 := by
      cases a with
      | random values => rw [data, values.2]; rfl
      | _ => rfl
    rw [map_cons, sum_cons, add_mod, hdata, ih]
    rfl

theorem length_of_pushStrings (h : pushStrings r strs s = .ok (ptrs, s')) :
    ptrs.length = strs.length := by
  induction strs generalizing s ptrs with
  | nil =>
    cases h
    rfl
  | cons str strs ih =>
    obtain ⟨t, -, h⟩ := bind_eq_ok.1 h
    obtain ⟨u, -, h⟩ := bind_eq_ok.1 h
    obtain ⟨⟨rest, v⟩, hv, h⟩ := bind_eq_ok.1 h
    cases h
    exact congrArg succ (ih hv)

theorem length_of_pushTables (h : pushTables r argv envp auxv s =
      .ok ((argvPtrs, envpPtrs, auxvPtrs), s')) :
    argvPtrs.length = argv.length ∧ envpPtrs.length = envp.length := by
  obtain ⟨⟨ptrs₁, s₁⟩, -, h⟩ := bind_eq_ok.1 h
  obtain ⟨⟨ptrs₂, s₂⟩, h₂, h⟩ := bind_eq_ok.1 h
  obtain ⟨⟨ptrs₃, s₃⟩, h₃, h⟩ := bind_eq_ok.1 h
  cases h
  exact ⟨(length_of_pushStrings h₃).trans length_reverse, length_of_pushStrings h₂⟩

theorem length_pushedWords (entries : List (Auxv × Nat)) :
    (pushedWords entries).length = entries.length * 2 := by
  simp [pushedWords, length_flatMap, entryWords]

/-- **The estimate is enough room**, below a top that is aligned. -/
theorem initUserStack_ok (r : StackRegion) (argv envp : List Bytes) (auxv : List Auxv)
    (mem : Nat → UInt8) (htop : r.top % usizeLen = 0)
    (h : estimateUserInitStackSize argv envp auxv ≤ r.top - r.bottom) :
    ∃ usp mem', initUserStack r argv envp auxv mem = .ok (usp, mem') := by
  have haux := auxDataLen_mod auxv
  change alignUp (tableLen argv + tableLen envp) 8 + auxDataLen auxv +
    (2 * (1 + auxv.length) + argv.length + 1 + envp.length + 1 + 1) * 8 ≤ _ at h
  change auxDataLen auxv % 8 = 0 at haux
  change r.top % 8 = 0 at htop
  rw [alignUp, alignDown] at h
  have hlen : (table argv.reverse ++ table envp ++ auxv.reverse.reverse.flatMap data).length =
      tableLen argv + tableLen envp + auxDataLen auxv := by
    rw [length_append, length_append, length_table, length_table, reverse_reverse, length_flatMap,
      ← auxDataLen_eq, tableLen_eq argv.reverse, map_reverse, sum_reverse, ← tableLen_eq]
  obtain ⟨s, hs, hsp⟩ := pushBytes_ok (r := r) (s := ⟨r.top, mem⟩)
    (show r.bottom + length _ ≤ r.top by rw [hlen]; omega)
  change s.sp + length _ = r.top at hsp
  rw [← pushTables_eq r.bottom_le] at hs
  rcases htables : pushTables r argv envp auxv ⟨r.top, mem⟩ with
    e | ⟨⟨argvPtrs, envpPtrs, auxvPtrs⟩, t⟩
  · rw [htables] at hs
    cases hs
  rw [htables] at hs
  obtain rfl : t = s := Except.ok.inj hs
  obtain ⟨hargv, henvp⟩ := length_of_pushTables htables
  have hvectors : r.bottom + (encodeAll usizeLen (argv.length :: (argvPtrs.reverse ++ 0 ::
        (envpPtrs.reverse ++ 0 :: (pushedWords (auxv.zip auxvPtrs) ++ [0, 0]))))).length ≤
      alignDown t.sp usizeLen := by
    have hzip := min_le_left auxv.length auxvPtrs.length
    rw [hlen] at hsp
    simp only [length_encodeAll, length_cons, length_append, length_reverse, length_nil, hargv,
      henvp, length_pushedWords, length_zip, alignDown, usizeLen]
    omega
  obtain ⟨s', hs', -⟩ := pushBytes_ok (s := { t with sp := alignDown t.sp usizeLen }) hvectors
  exact ⟨_, _, bind_eq_ok.2 ⟨_, htables, bind_eq_ok.2 ⟨s', (pushVectors_eq _).trans hs', rfl⟩⟩⟩

end InitStack

namespace Startup

open InitStack

variable {r : StackRegion} {s : InitStack} {ptr argc : Nat} {ptrs argvPtrs envpPtrs : List Nat}
  {strs : List Bytes} {auxv : List Auxv}

/-! ## Reading -/

/-- The user reads from its stack pointer what the kernel wrote from
its own. -/
theorem userBytes_sp (hsp : r.bottom ≤ s.sp) (hs : s.sp ≤ r.top) :
    userBytes r s.mem (kernelSpToUserSp r s.sp) = s.bytes r := by
  have hroom := r.room
  have hoff : r.userTop - kernelSpToUserSp r s.sp = r.top - s.sp := by
    rw [kernelSpToUserSp]
    omega
  have hback : r.top - (r.top - s.sp) = s.sp := by omega
  rw [userBytes, hoff, if_pos (by omega), hback]
  rfl

/-- The user finds what a pointer leads to. -/
theorem userBytes_of_pointsTo {content : Bytes} (hsp : r.bottom ≤ s.sp) (hs : s.sp ≤ r.top)
    (h : PointsTo r (s.bytes r) ptr content) : ∃ post, userBytes r s.mem ptr = content ++ post := by
  obtain ⟨pre, post, hbytes, hptr⟩ := h
  have hlen : pre.length + (content ++ post).length = r.top - s.sp := by
    have := congrArg length hbytes
    rw [length_bytes, length_append] at this
    exact this.symm
  have hoff : r.userTop - ptr = r.top - s.sp - pre.length := by omega
  have hstart : r.top - (r.top - s.sp - pre.length) = s.sp + pre.length := by omega
  refine ⟨post, ?_⟩
  rw [userBytes, hoff, if_pos (by omega), hstart, ← drop_slice]
  calc (s.bytes r).drop pre.length
      = (pre ++ (content ++ post)).drop pre.length := by rw [hbytes]
    _ = content ++ post := drop_left

/-- The string that ends at the first NUL. -/
def cstr (str : Bytes) : Bytes := str.takeWhile (· ≠ 0)

theorem readCStr_append (str post : Bytes) : readCStr (str ++ 0 :: post) = some (cstr str) := by
  induction str with
  | nil => rfl
  | cons b str ih =>
    rw [cons_append, readCStr]
    by_cases hb : b = 0
    · rw [if_pos hb, cstr, takeWhile_cons_of_neg (by simp [hb])]
    · have hcons : cstr (b :: str) = b :: cstr str :=
        takeWhile_cons_of_pos (by simp [hb])
      rw [if_neg hb, ih, hcons, map_some]

theorem cstr_eq_self {str : Bytes} : cstr str = str ↔ 0 ∉ str := by
  rw [cstr, takeWhile_eq_self_iff]
  simp only [decide_eq_true_eq]
  constructor
  · intro h hmem
    exact h 0 hmem rfl
  · intro h b hb hzero
    exact h (hzero ▸ hb)

theorem readVector_append (h : ∀ ptr ∈ ptrs, ptr ≠ 0) (rest : List Nat) :
    readVector (ptrs ++ 0 :: rest) = some (ptrs, rest) := by
  induction ptrs with
  | nil => rfl
  | cons ptr ptrs ih =>
    rw [cons_append, readVector, if_neg (h ptr mem_cons_self),
      ih fun p hp => h p (mem_cons_of_mem ptr hp)]
    rfl

theorem entry_fst_eq_zero {a : Auxv} : (a.entry ptr).1 = 0 ↔ a = .null := by
  cases a <;> simp [entry]

/-- The entries are read up to the first that ends the vector. -/
theorem readAuxEntries_append (auxv : List Auxv) (ptr : Nat) (rest : List Nat) :
    readAuxEntries (entriesWords ptr auxv ++ 0 :: 0 :: rest) =
      some ((auxv.takeWhile (· ≠ .null)).map (entry ptr)) := by
  induction auxv with
  | nil => rfl
  | cons a auxv ih =>
    have hwords : entriesWords ptr (a :: auxv) =
      (a.entry ptr).1 :: (a.entry ptr).2 :: entriesWords ptr auxv := rfl
    rw [hwords, cons_append, cons_append, readAuxEntries]
    by_cases ha : a = .null
    · rw [if_pos (entry_fst_eq_zero.2 ha), takeWhile_cons_of_neg (by simp [ha])]
      rfl
    · rw [if_neg (mt entry_fst_eq_zero.1 ha), ih, takeWhile_cons_of_pos (by simp [ha])]
      rfl

/-- An entry is read back, when the data pointer leads to its data. -/
theorem readAuxv_entry {bytes : Nat → Bytes} {a : Auxv} (hnull : a ≠ .null)
    (hdata : ∀ values, a = .random values → ∃ post, bytes ptr = values.1 ++ post) :
    readAuxv bytes (a.entry ptr) = some a := by
  cases a with
  | null => exact absurd rfl hnull
  | phdr value | phent value | phnum value | pagesz value =>
    simp only [entry, readAuxv, UInt64.ofNat_toNat]
  | random values =>
    obtain ⟨post, hpost⟩ := hdata values rfl
    have htake : (bytes ptr).take 16 = values.1 := by
      rw [hpost, take_left' values.2]
    simp [entry, readAuxv, htake, values.2]

/-- The strings the pointers of a vector lead to. -/
theorem readCStr_of_pointsTo (hsp : r.bottom ≤ s.sp) (hs : s.sp ≤ r.top)
    (h : PointToAll r (s.bytes r) strs ptrs) :
    ptrs.mapM (fun ptr => readCStr (userBytes r s.mem ptr)) = some (strs.map cstr) := by
  refine Traverse.mapM_eq_some_iff.2 (forall₂_map_right_iff.2 (h.flip.imp fun ptr str hptr => ?_))
  obtain ⟨post, hpost⟩ := userBytes_of_pointsTo hsp hs hptr
  rw [hpost, append_assoc]
  exact readCStr_append str post

/-- A pointer into the tables is not NULL, and fits a word. -/
theorem ptr_bounds {sp : Nat} {content : Bytes} (hsp : r.bottom ≤ sp) (hlt : sp < s.sp)
    (hs : s.sp ≤ r.top) (h : PointsTo r (s.bytes r) ptr content) :
    ptr ≠ 0 ∧ ptr < limit usizeLen := by
  obtain ⟨pre, post, hbytes, hptr⟩ := h
  have hlen := congrArg length hbytes
  rw [length_bytes, length_append] at hlen
  have hroom := r.room
  have hlimit : r.userTop < limit usizeLen := r.userTop_lt
  omega

theorem forall_ptr_bounds {sp : Nat} (hsp : r.bottom ≤ sp) (hlt : sp < s.sp) (hs : s.sp ≤ r.top)
    (h : PointToAll r (s.bytes r) strs ptrs) : ∀ ptr ∈ ptrs, ptr ≠ 0 ∧ ptr < limit usizeLen := by
  induction h with
  | nil =>
    nofun
  | cons hhead _ ih => exact forall_mem_cons.2 ⟨ptr_bounds hsp hlt hs hhead, ih⟩

theorem entry_lt {a : Auxv} (hptr : ptr < limit usizeLen) :
    (a.entry ptr).1 < limit usizeLen ∧ (a.entry ptr).2 < limit usizeLen := by
  have hword : ∀ value : UInt64, value.toNat < limit usizeLen := fun value => value.toNat_lt
  cases a with
  | null => exact ⟨by simp only [entry]; decide, by simp only [entry]; decide⟩
  | phdr value | phent value | phnum value | pagesz value =>
    exact ⟨by simp only [entry]; decide, hword value⟩
  | random values => exact ⟨by simp only [entry]; decide, hptr⟩

/-- Every word of the vectors fits. -/
theorem vectorWords_lt (auxv : List Auxv) (hargc : argc < limit usizeLen)
    (hargv : ∀ p ∈ argvPtrs, p < limit usizeLen) (henvp : ∀ p ∈ envpPtrs, p < limit usizeLen)
    (hptr : ptr < limit usizeLen) :
    ∀ w ∈ vectorWords argc argvPtrs envpPtrs ptr auxv, w < limit usizeLen := by
  have hzero : 0 < limit usizeLen := by decide
  intro w hw
  simp only [vectorWords, mem_cons, mem_append, not_mem_nil, or_false] at hw
  rcases hw with rfl | hw | rfl | hw | rfl | hw | rfl | rfl
  · exact hargc
  · exact hargv w hw
  · exact hzero
  · exact henvp w hw
  · exact hzero
  · obtain ⟨a, -, ha⟩ := mem_flatMap.1 hw
    rcases mem_cons.1 ha with rfl | ha
    · exact (entry_lt hptr).1
    · rw [mem_singleton.1 ha]
      exact (entry_lt hptr).2
  · exact hzero
  · exact hzero

variable {argv envp : List Bytes}

/-- **The vectors are read back**, whatever follows them. -/
theorem readVectors_append {bytes : Nat → Bytes}
    (hargvPtrs : ∀ p ∈ argvPtrs, p ≠ 0) (henvpPtrs : ∀ p ∈ envpPtrs, p ≠ 0)
    (hargv : argvPtrs.mapM (fun p => readCStr (bytes p)) = some argv)
    (henvp : envpPtrs.mapM (fun p => readCStr (bytes p)) = some envp)
    (hdata : ∀ values, .random values ∈ auxv → ∃ post, bytes ptr = values.1 ++ post)
    (rest : List Nat) : readVectors bytes argc
        (argvPtrs ++ 0 :: (envpPtrs ++ 0 :: (entriesWords ptr auxv ++ 0 :: 0 :: rest))) =
      some ⟨argc, argv, envp, auxv.takeWhile (· ≠ .null)⟩ := by
  have hauxv : ((auxv.takeWhile (· ≠ .null)).map (entry ptr)).mapM (readAuxv bytes) =
      some (auxv.takeWhile (· ≠ .null)) := by
    refine Traverse.mapM_eq_some_iff.2 (forall₂_map_left_iff.2 (forall₂_same.2 fun a ha => ?_))
    have hnull := mem_takeWhile_imp ha
    refine readAuxv_entry (of_decide_eq_true hnull) fun values hvalues => hdata values ?_
    rw [← hvalues]
    exact IsPrefix.mem ha <| takeWhile_prefix _
  simp only [readVectors, readVector_append hargvPtrs, readVector_append henvpPtrs,
    readAuxEntries_append, bind_eq_bind, bind_some, hargv, henvp, hauxv]
  rfl

/-- The words of a stack are those that were pushed last, and others. -/
theorem read_eq {s' : InitStack} {pad : Bytes} (hbot : r.bottom ≤ s'.sp) (hs : s'.sp ≤ r.top)
    (hpush : Pushes r s
      (encodeAll usizeLen (vectorWords argc argvPtrs envpPtrs ptr auxv) ++ pad) s')
    (hwords : ∀ w ∈ vectorWords argc argvPtrs envpPtrs ptr auxv, w < limit usizeLen) :
    read r s'.mem (kernelSpToUserSp r s'.sp) =
      readVectors (userBytes r s'.mem) argc (argvPtrs ++ 0 :: (envpPtrs ++ 0 ::
        (entriesWords ptr auxv ++ 0 :: 0 ::
          decodeAll usizeLen ((pad ++ s.bytes r).length / usizeLen) (pad ++ s.bytes r)))) := by
  have hbytes : userBytes r s'.mem (kernelSpToUserSp r s'.sp) =
      encodeAll usizeLen (vectorWords argc argvPtrs envpPtrs ptr auxv) ++ (pad ++ s.bytes r) := by
    rw [userBytes_sp hbot hs, hpush.bytes, append_assoc]
  have hcount (n : Nat) : (usizeLen * n + (pad ++ s.bytes r).length) / usizeLen =
      n + (pad ++ s.bytes r).length / usizeLen := mul_add_div (by decide) n _
  simp only [read, hbytes]
  rw [length_append, length_encodeAll, hcount, decodeAll_encodeAll hwords]
  simp [vectorWords]

/-- **What the program finds**: the arguments in their order, the
environment in the opposite one, and the auxiliary entries in the opposite
order too. Strings end at their first NUL, and the entries at the first
that says so. -/
theorem read_initUserStack
    {values : { bytes : Bytes // bytes.length = 16 }} {mem mem' : Nat → UInt8} {usp : Nat}
    (hauxv : ∀ a ∈ auxv, a.isRandom = false)
    (h : initUserStack r argv envp (auxv ++ [.random values]) mem = .ok (usp, mem')) :
    read r mem' usp = some ⟨argv.length, argv.map cstr, envp.reverse.map cstr,
      (auxv ++ [random values]).reverse.takeWhile (· ≠ .null)⟩ := by
  obtain ⟨⟨⟨argvPtrs, envpPtrs, auxvPtrs⟩, s⟩, htables, h⟩ := bind_eq_ok.1 h
  obtain ⟨s', hvectors, h⟩ := bind_eq_ok.1 h
  cases h
  obtain ⟨hs, hargv, henvp, ptr, rfl, hptr⟩ :=
    pointsTo_of_pushTables (le_refl r.top) hauxv htables
  change s.sp ≤ r.top at hs
  obtain ⟨⟨pad, hpush⟩, hbot⟩ := pushes_of_pushVectors hs hvectors
  have hs' : s'.sp ≤ r.top := le_trans hpush.le hs
  -- the vectors are not empty, so the stack pointer is below the tables
  have hlen : s'.sp + 8 * (argvPtrs.reverse.length + 1) ≤ s.sp := by
    have hsp := hpush.sp
    simp only [vectorWords, length_append, length_cons, length_encodeAll, usizeLen] at hsp
    omega
  have hlt : s'.sp < s.sp := by omega
  have hargvPtrs := forall_ptr_bounds hbot hlt hs hargv
  have henvpPtrs := forall_ptr_bounds hbot hlt hs henvp
  have hargc : argv.length < limit usizeLen := by
    have hroom := r.room
    have hlimit : r.userTop < limit usizeLen := r.userTop_lt
    rw [hargv.length_eq]
    omega
  have hwords := vectorWords_lt (auxv ++ [random values]).reverse hargc
    (fun p hp => (hargvPtrs p hp).2) (fun p hp => (henvpPtrs p hp).2) (ptr_bounds hbot hlt hs hptr).2
  have hdata : ∀ values', random values' ∈ (auxv ++ [random values]).reverse →
      ∃ post, userBytes r s'.mem ptr = values'.1 ++ post := by
    intro values' hmem
    rcases mem_append.1 (mem_reverse.1 hmem) with hmem | hmem
    · exact absurd (hauxv _ hmem) (by simp [isRandom])
    · obtain rfl : values' = values := random.inj (mem_singleton.1 hmem)
      exact userBytes_of_pointsTo hbot hs' (hptr.of_pushes hpush)
  rw [read_eq hbot hs' hpush hwords]
  exact readVectors_append (fun p hp => (hargvPtrs p hp).1) (fun p hp => (henvpPtrs p hp).1)
    (readCStr_of_pointsTo hbot hs' (hargv.of_pushes hpush))
    (readCStr_of_pointsTo hbot hs' (henvp.of_pushes hpush)) hdata _

/-! ## When it is what was given -/

theorem nul_not_mem_of_map_cstr {strs' : List Bytes} (h : strs'.map cstr = strs) :
    ∀ str ∈ strs, 0 ∉ str := by
  intro str hstr hnul
  rw [← h] at hstr
  obtain ⟨str', -, rfl⟩ := mem_map.1 hstr
  have := mem_takeWhile_imp hnul
  simp at this

theorem map_cstr_eq_self : strs.map cstr = strs ↔ ∀ str ∈ strs, 0 ∉ str := by
  constructor
  · exact nul_not_mem_of_map_cstr
  · intro h
    calc strs.map cstr = strs.map id :=
          map_congr_left fun str hstr => cstr_eq_self.2 (h str hstr)
      _ = strs := map_id strs

/-- A reversed list of strings is found as it was given when it is the
same both ways. -/
theorem map_cstr_reverse_eq_self :
    strs.reverse.map cstr = strs ↔ (∀ str ∈ strs, 0 ∉ str) ∧ strs.reverse = strs := by
  constructor
  · intro h
    have hnul := nul_not_mem_of_map_cstr h
    refine ⟨hnul, ?_⟩
    rw [map_reverse, map_cstr_eq_self.2 hnul] at h
    exact h
  · rintro ⟨hnul, hrev⟩
    rw [hrev]
    exact map_cstr_eq_self.2 hnul

/-- The entries before the first that ends the vector are all of them
when there is no such entry. -/
theorem takeWhile_reverse_perm : (auxv.reverse.takeWhile (· ≠ .null)).Perm auxv ↔ .null ∉ auxv := by
  constructor
  · intro h hmem
    have := mem_takeWhile_imp (h.mem_iff.2 hmem)
    simp at this
  · intro h
    have hall : auxv.reverse.takeWhile (· ≠ .null) = auxv.reverse := by
      rw [takeWhile_eq_self_iff]
      intro a ha
      refine decide_eq_true fun hnull => h ?_
      rw [← hnull]
      exact mem_reverse.1 ha
    rw [hall]
    exact reverse_perm auxv

/-- **The program finds what `execve` was given exactly when the
environment reads the same backwards**, its strings and entries being
such that they can be found at all. -/
theorem finds_iff_symmetric {auxv : List Auxv}
    {values : { bytes : Bytes // bytes.length = 16 }} {mem mem' : Nat → UInt8} {usp : Nat}
    (hauxv : ∀ a ∈ auxv, a.isRandom = false)
    (h : initUserStack r argv envp (auxv ++ [random values]) mem = .ok (usp, mem')) :
    Finds r mem' usp argv envp (auxv ++ [random values]) ↔
      Symmetric argv envp (auxv ++ [random values]) := by
  have hread := read_initUserStack hauxv h
  constructor
  · rintro ⟨startup, hstartup, -, hargv, henvp, hperm⟩
    obtain rfl := some.inj (hread.symm.trans hstartup)
    obtain ⟨hnul, hrev⟩ := map_cstr_reverse_eq_self.1 henvp
    exact ⟨map_cstr_eq_self.1 hargv, hnul, takeWhile_reverse_perm.1 hperm, hrev⟩
  · rintro ⟨hargv, henvp, hnull, hrev⟩
    refine ⟨_, hread, rfl, map_cstr_eq_self.2 hargv, ?_, takeWhile_reverse_perm.2 hnull⟩
    exact map_cstr_reverse_eq_self.2 ⟨henvp, hrev⟩

/-- A page below the top of the user stack. -/
def page : StackRegion where
  userTop := 0x9fffff000
  top := 0xffff800000002000
  bottom := 0xffff800000001000
  bottom_le := by decide
  room := by decide
  userTop_lt := by decide

/-- Sixteen bytes for the stack canary. -/
def canary : { bytes : Bytes // bytes.length = 16 } := ⟨range' 1 16 |>.map UInt8.ofNat, rfl⟩

/-- **A stack of the estimated size is enough.** The call returns, and
nothing below the bottom is written. -/
theorem initUserStack_of_estimate (r : StackRegion) (argv envp : List Bytes) (auxv : List Auxv)
    (mem : Nat → UInt8) (htop : r.top % usizeLen = 0)
    (h : estimateUserInitStackSize argv envp auxv ≤ r.top - r.bottom) :
    ∃ usp mem', initUserStack r argv envp auxv mem = .ok (usp, mem') ∧
      ∀ a, a < r.bottom → mem' a = mem a := by
  obtain ⟨usp, mem', hok⟩ := initUserStack_ok r argv envp auxv mem htop h
  exact ⟨usp, mem', hok, fun a ha => initUserStack_outside hok (.inl ha)⟩

/-- One argument on a page. -/
theorem initUserStack_of_page : ∃ usp mem',
    initUserStack page [[108, 115]] [] [.random canary] (fun _ => 0) = .ok (usp, mem') ∧
      ∀ a, a < page.bottom → mem' a = 0 :=
  initUserStack_of_estimate page [[108, 115]] [] [.random canary] (fun _ => 0) rfl (by decide)

/-- A program with two arguments and one environment string finds them. -/
theorem finds_of_one_env : ∃ usp mem', initUserStack page [[108, 115], [47]] [[65, 61, 49]]
        ([.pagesz 4096] ++ [.random canary]) (fun _ => 0) = .ok (usp, mem') ∧
      Finds page mem' usp [[108, 115], [47]] [[65, 61, 49]] ([.pagesz 4096] ++ [.random canary]) := by
  obtain ⟨usp, mem', h⟩ := initUserStack_ok page [[108, 115], [47]] [[65, 61, 49]]
    ([.pagesz 4096] ++ [.random canary]) (fun _ => 0) rfl (by decide)
  refine ⟨usp, mem', h, (finds_iff_symmetric ?_ h).2 ⟨?_, ?_, ?_, rfl⟩⟩
  · simp [isRandom]
  · decide
  · decide
  · simp

/-- A program with two environment strings finds the second one first. -/
theorem not_finds_of_two_envs :
    ∃ usp mem', initUserStack page [[108, 115]] [[65, 61, 49], [66, 61, 50]]
        ([.pagesz 4096] ++ [.random canary]) (fun _ => 0) = .ok (usp, mem') ∧
      (read page mem' usp).map (·.envp) = some [[66, 61, 50], [65, 61, 49]] ∧
      ¬ Finds page mem' usp [[108, 115]] [[65, 61, 49], [66, 61, 50]]
        ([.pagesz 4096] ++ [.random canary]) := by
  obtain ⟨usp, mem', h⟩ := initUserStack_ok page [[108, 115]] [[65, 61, 49], [66, 61, 50]]
    ([.pagesz 4096] ++ [.random canary]) (fun _ => 0) rfl (by decide)
  have hread := read_initUserStack (by simp [isRandom]) h
  refine ⟨usp, mem', h, ?_, ?_⟩
  · rw [hread]
    rfl
  · rintro ⟨startup, hstartup, -, -, henvp, -⟩
    obtain rfl := some.inj (hread.symm.trans hstartup)
    exact absurd henvp (by decide)

end Startup

end Archives.Kerla
