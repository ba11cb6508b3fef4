import Webthree.Lemmas.KnownTrace
import Webthree.Lemmas.VmRun

/-!
# What the machine does with items

One turn of the loop of the machine does to its stack, its memory and its storage what is said of the item that the code has at its
place. The storage is what the externalities have for the contract: the functions that only ask them leave it as it is.
-/

namespace Webthree

namespace VM

open KnownState (Contents Acts word storeWord args_of_arity answer_of_other)
open SemanticInformation

variable {τ : Type}

/-! ## The storage -/

/-- A function of the externalities leaves the storage as it is, while `I` holds. -/
def Leaves {α : Type} (I : τ → Prop) (storage : τ → U256 → U256) (m : EStateM Stop τ α) : Prop :=
  ∀ e, I e → Runs m e (fun _ e' => storage e' = storage e) fun _ e' => storage e' = storage e

/-- What the externalities have as the storage of the contract. -/
structure StorageLaws (F : ExtVMFace τ) (I : τ → Prop) (storage : τ → U256 → U256) : Prop where
  store : ∀ k e, I e → Runs (F.store k) e (fun x _ => x = storage e k) fun _ _ => True
  setStore : ∀ k v e, I e → Runs (F.setStore k v) e (fun _ e' => storage e' = Function.update (storage e) k v) fun _ _ => True
  store_leaves : ∀ k, Leaves I storage (F.store k)
  balance : ∀ a, Leaves I storage (F.balance a)
  codeAt : ∀ a, Leaves I storage (F.codeAt a)
  «exists» : ∀ a, Leaves I storage (F.exists a)
  log : ∀ ts b, Leaves I storage (F.log ts b)
  addRefunds : ∀ v, Leaves I storage (F.addRefunds v)

/-- The externalities without the functions that change the storage, which `checkRequirements` does not call. -/
def asking (F : ExtVMFace τ) : ExtVMFace τ := { F with
  setStore := fun _ _ => throw .outOfFuel
  suicide := fun _ => throw .outOfFuel
  create := fun _ _ _ => throw .outOfFuel
  call := fun _ => throw .outOfFuel }

variable {F : ExtVMFace τ} {I : τ → Prop} {X : Stop → Prop} {G : U256 → U256 → Prop} {storage : τ → U256 → U256}

theorem Leaves.kept {α : Type} {m : EStateM Stop τ α} (h : Leaves I storage m) {s₀ : U256 → U256} {e : τ} (he : I e ∧ storage e = s₀)
    (hI : Runs m e (fun _ e' => I e') fun x e' => Kept I x e' ∧ X x) :
    Runs m e (fun _ e' => I e' ∧ storage e' = s₀) fun x e' => Kept (fun e => I e ∧ storage e = s₀) x e' ∧ X x :=
  (hI.and (h e he.1)).mono (fun _ _ h' => ⟨h'.1, h'.2.trans he.2⟩) fun _ _ h' => ⟨fun hc => ⟨h'.1.1 hc, h'.2.trans he.2⟩, h'.1.2⟩

theorem StorageLaws.contract (hF : StorageLaws F I storage) (C : Contract F I X G (2 ^ 256)) (s₀ : U256 → U256) :
    Contract (asking F) (fun e => I e ∧ storage e = s₀) (fun x => X x ∨ x = .outOfFuel) G (2 ^ 256) where
  store k e he := ((hF.store_leaves k).kept he (C.store k e he.1)).mono (fun _ _ h => h) fun _ _ h => ⟨h.1, .inl h.2⟩
  setStore _ _ _ he := ⟨fun _ => he, .inr rfl⟩
  balance a e he := ((hF.balance a).kept he (C.balance a e he.1)).mono (fun _ _ h => h) fun _ _ h => ⟨h.1, .inl h.2⟩
  codeAt a e he := ((hF.codeAt a).kept he (C.codeAt a e he.1)).mono (fun _ _ h => h) fun _ _ h => ⟨h.1, .inl h.2⟩
  «exists» a e he := ((hF.exists a).kept he (C.exists a e he.1)).mono (fun _ _ h => h) fun _ _ h => ⟨h.1, .inl h.2⟩
  suicide _ _ he := ⟨fun _ => he, .inr rfl⟩
  create _ _ _ _ he _ _ := ⟨fun _ => he, .inr rfl⟩
  call _ _ he _ _ := ⟨fun _ => he, .inr rfl⟩
  log ts b e he := ((hF.log ts b).kept he (C.log ts b e he.1)).mono (fun _ _ h => h) fun _ _ h => ⟨h.1, .inl h.2⟩
  addRefunds v e he := ((hF.addRefunds v).kept he (C.addRefunds v e he.1)).mono (fun _ _ h => h) fun _ _ h => ⟨h.1, .inl h.2⟩

/-- What `checkRequirements` does leaves the storage as it is. -/
theorem checked_keeps (hF : StorageLaws F I storage) (C : Contract F I X G (2 ^ 256)) {inst : Instruction} {s u : Frame τ} (hI : I s.ext)
    (h : checkRequirements F inst s = .ok () u) : Checked F (fun e => I e ∧ storage e = storage s.ext) inst s u := by
  have hask : checkRequirements (asking F) inst s = .ok () u := h
  obtain ⟨h1, h2, h3, h4, h5, h6, h7, h8, h9, h10, h11, h12⟩ :=
    (runs_checkRequirements (hF.contract C (storage s.ext)) inst (s := s) ⟨hI, rfl⟩).of_ok hask
  exact ⟨h1, h2, h3, h4, h5, h6, h7, h8, h9, h10, h11, h12⟩

/-! ## The contents -/

/-- What the machine has. -/
def contents (storage : τ → U256 → U256) (s : Frame τ) : Contents := ⟨s.m_stack, memoryOf s.m_temp, storage s.ext⟩

/-- Zeros behind the end of the memory are there anyway. -/
theorem memoryOf_zeros (m : Bytes) (k : Nat) : memoryOf (m ++ List.replicate k 0) = memoryOf m := by
  funext a
  rw [memoryOf, memoryOf, List.getD_eq_getElem?_getD, List.getD_eq_getElem?_getD, List.getElem?_append]
  split
  · rfl
  · rename_i hlt
    rw [List.getElem?_eq_none (Nat.le_of_not_lt hlt), List.getElem?_replicate]
    split <;> rfl

theorem contents_checked {inst : Instruction} {s u : Frame τ} (h : Checked F (fun e => I e ∧ storage e = storage s.ext) inst s u) :
    contents storage u = contents storage s := by
  obtain ⟨k, hk⟩ := h.grows
  rw [contents, contents, h.stack, hk, memoryOf_zeros, h.ext.2]

/-! ## Instructions -/

/-- The instructions of which only the stack below the arguments and the result are said. -/
structure Simple (i : Instruction) : Prop where
  dup : ∀ k, i ≠ .DUP k
  swap : ∀ k, i ≠ .SWAP k
  mstore : i ≠ .MSTORE
  sstore : i ≠ .SSTORE

section

variable {sha3 : Bytes → U256} {f : ExtFields} {item : AssemblyItem} {m m' : Contents}

/-- An instruction that leaves one element. -/
theorem acts_of_result (hsimple : Simple item.instruction) (hret : (instructionInfo item.instruction).ret = 1)
    (hargs : (instructionInfo item.instruction).args ≤ m.stack.length) {x : U256}
    (hstack : m'.stack = x :: m.stack.drop (instructionInfo item.instruction).args)
    (hx : isDeterministic item = true →
      x = answerOf sha3 f m.memory m.storage item.instruction (m.stack.take (instructionInfo item.instruction).args))
    (hmemory : invalidatesMemory item.instruction = false → m'.memory = m.memory)
    (hstorage : invalidatesStorage item.instruction = false → m'.storage = m.storage) : Acts sha3 f item m m' where
  args := hargs
  rest := by
    rw [hret, hstack]
    rfl
  dup k hk := absurd hk (hsimple.dup k)
  swap k hk := absurd hk (hsimple.swap k)
  result _ hd := by
    rw [hstack, ← hx hd]
    rfl
  stored h := absurd h hsimple.mstore
  memory := hmemory
  written h := absurd h hsimple.sstore
  storage := hstorage

/-- An instruction that only takes its arguments. -/
theorem acts_of_none (hsimple : Simple item.instruction) (hret : (instructionInfo item.instruction).ret = 0)
    (hargs : (instructionInfo item.instruction).args ≤ m.stack.length)
    (hstack : m'.stack = m.stack.drop (instructionInfo item.instruction).args)
    (hmemory : invalidatesMemory item.instruction = false → m'.memory = m.memory)
    (hstorage : invalidatesStorage item.instruction = false → m'.storage = m.storage) : Acts sha3 f item m m' where
  args := hargs
  rest := by
    rw [hret, hstack]
    rfl
  dup k hk := absurd hk (hsimple.dup k)
  swap k hk := absurd hk (hsimple.swap k)
  result h := absurd (hret.symm.trans h) (by decide)
  stored h := absurd h hsimple.mstore
  memory := hmemory
  written h := absurd h hsimple.sstore
  storage := hstorage

/-- A store. -/
theorem acts_of_store {i : Instruction} (hi : item.instruction = i) (h : i = .MSTORE ∨ i = .SSTORE) (hargs : 2 ≤ m.stack.length)
    (hstack : m'.stack = m.stack.drop 2)
    (hmemory : m'.memory = if i = .MSTORE then storeWord m.memory (m.stack.getD 0 0) (m.stack.getD 1 0) else m.memory)
    (hstorage : m'.storage = if i = .SSTORE then Function.update m.storage (m.stack.getD 0 0) (m.stack.getD 1 0) else m.storage) :
    Acts sha3 f item m m' := by
  subst hi
  have hinfo : (instructionInfo item.instruction).args = 2 ∧ (instructionInfo item.instruction).ret = 0 := by
    rcases h with h | h <;> rw [h] <;> exact ⟨rfl, rfl⟩
  refine ⟨by rw [hinfo.1]; exact hargs, by rw [hinfo.1, hinfo.2, hstack]; rfl, fun k hk => ?_, fun k hk => ?_, fun hret => ?_,
    fun hi => ?_, fun hkeeps => ?_, fun hi => ?_, fun hkeeps => ?_⟩
  · rcases h with h | h <;> rw [h] at hk <;> cases hk
  · rcases h with h | h <;> rw [h] at hk <;> cases hk
  · rw [hinfo.2] at hret
    cases hret
  · rw [hmemory, if_pos hi]
  · rw [hmemory, if_neg]
    intro hi
    rw [hi] at hkeeps
    cases hkeeps
  · rw [hstorage, if_pos hi]
  · rw [hstorage, if_neg]
    intro hi
    rw [hi] at hkeeps
    cases hkeeps

end

/-- What the contents of a frame become by the instruction of an item. -/
abbrev ActsOn (F : ExtVMFace τ) (storage : τ → U256 → U256) (item : AssemblyItem) (u t : Frame τ) : Prop :=
  Acts (fun b => (F.sha3 b).toU256) F.fields item (contents storage u) (contents storage t)

section

variable {item : AssemblyItem} {u : Frame τ}

/-- An arithmetic instruction. -/
theorem acts_operator (ht : item.type = .Operation) {o : Operator} (ho : operator item.instruction = some o)
    (h : (instructionInfo item.instruction).args ≤ u.m_stack.length) :
    Runs (execOrdinaryOpcode F item.instruction) u (fun _ t => ActsOn F storage item u t) fun _ _ => True := by
  have hk : item.arity = some o.arity := by
    rw [AssemblyItem.arity, if_pos ht, ho]
    rfl
  have hlength : (u.m_stack.take (instructionInfo item.instruction).args).length = o.arity := by
    rw [List.length_take_of_le h, args_of_arity hk]
  obtain ⟨v, hv, _⟩ := ExpressionClasses.itemValue_of_arity hk hlength
  rw [itemValue_operation ht] at hv
  rw [Runs, exec_arith F hv (List.take_append_drop _ _).symm]
  have hno : ∀ i, item.instruction = i → operator i = none → False := fun i hi hnone => by
    rw [hi, hnone] at ho
    cases ho
  have hret : (instructionInfo item.instruction).ret = 1 := by
    cases hi : item.instruction <;> first | rfl | exact (hno _ hi rfl).elim
  have hkeeps : invalidatesMemory item.instruction = false ∧ invalidatesStorage item.instruction = false := by
    cases hi : item.instruction <;> first | exact ⟨rfl, rfl⟩ | exact (hno _ hi rfl).elim
  refine acts_of_result ⟨fun k hi => hno _ hi rfl, fun k hi => hno _ hi rfl, fun hi => hno _ hi rfl, fun hi => hno _ hi rfl⟩ hret h rfl
    (fun _ => ?_) (fun _ => rfl) fun _ => rfl
  rw [contents]
  dsimp only
  rw [answer_of_other, hv]
  · rfl
  · exact fun a heq => hno _ (Prod.mk.inj heq).1 rfl
  · exact fun a heq => hno _ (Prod.mk.inj heq).1 rfl
  · exact fun a l heq => hno _ (Prod.mk.inj heq).1 rfl

section

variable {i : Instruction} (hi : item.instruction = i)

include hi

theorem actsOn_result (hsimple : Simple i) (hret : (instructionInfo i).ret = 1) (hargs : (instructionInfo i).args ≤ u.m_stack.length)
    {t : Frame τ} (x : U256) (hstack : t.m_stack = x :: u.m_stack.drop (instructionInfo i).args)
    (hx : isDeterministic item = true → x = answerOf (fun b => (F.sha3 b).toU256) F.fields (memoryOf u.m_temp) (storage u.ext) i
      (u.m_stack.take (instructionInfo i).args))
    (hmemory : invalidatesMemory i = false → memoryOf t.m_temp = memoryOf u.m_temp)
    (hstorage : invalidatesStorage i = false → storage t.ext = storage u.ext) : ActsOn F storage item u t := by
  subst hi
  exact acts_of_result hsimple hret hargs (x := x) hstack hx hmemory hstorage

theorem actsOn_none (hsimple : Simple i) (hret : (instructionInfo i).ret = 0) (hargs : (instructionInfo i).args ≤ u.m_stack.length)
    {t : Frame τ} (hstack : t.m_stack = u.m_stack.drop (instructionInfo i).args)
    (hmemory : invalidatesMemory i = false → memoryOf t.m_temp = memoryOf u.m_temp)
    (hstorage : invalidatesStorage i = false → storage t.ext = storage u.ext) : ActsOn F storage item u t := by
  subst hi
  exact acts_of_none hsimple hret hargs hstack hmemory hstorage

/-- An instruction that puts something on the stack. -/
theorem actsOn_push (hsimple : Simple i) (hret : (instructionInfo i).ret = 1) (hargs : (instructionInfo i).args = 0) {x : U256}
    (hx : isDeterministic item = true → x = answerOf (fun b => (F.sha3 b).toU256) F.fields (memoryOf u.m_temp) (storage u.ext) i []) :
    ActsOn F storage item u { u with m_stack := x :: u.m_stack } := by
  refine actsOn_result hi hsimple hret (by rw [hargs]; exact Nat.zero_le _) x ?_ (fun hd => ?_) (fun _ => rfl) fun _ => rfl
  · rw [hargs]
    rfl
  · rw [hargs]
    exact hx hd

/-- An instruction that puts something in the place of the top of the stack. -/
theorem runs_unary_acts (hsimple : Simple i) (hret : (instructionInfo i).ret = 1) (hargs : (instructionInfo i).args = 1)
    (hlength : 1 ≤ u.m_stack.length) (f : U256 → U256)
    (hx : ∀ x, f x = answerOf (fun b => (F.sha3 b).toU256) F.fields (memoryOf u.m_temp) (storage u.ext) i [x]) :
    Runs (unary f) u (fun _ t => ActsOn F storage item u t) fun _ _ => True := by
  obtain ⟨a, rest, hs⟩ := List.length_pos_iff_exists_cons.mp hlength
  rw [unary, back, runs_bind, runs_fromTop (by omega) hlength, runs_setFromTop (by omega) hlength]
  refine actsOn_result hi hsimple hret (by rw [hargs]; exact hlength) (f (u.m_stack.getD 0 0)) ?_ (fun _ => ?_) (fun _ => rfl) fun _ => rfl
  · rw [hargs, hs]
    rfl
  · rw [hx, hargs, hs]
    rfl

/-- An instruction that asks for something about the top of the stack. -/
theorem runs_ask (hsimple : Simple i) (hret : (instructionInfo i).ret = 1) (hargs : (instructionInfo i).args = 1)
    (hlength : 1 ≤ u.m_stack.length) (hI : I u.ext) {α : Type} {m : U256 → EStateM Stop τ α} (hm : ∀ x, Leaves I storage (m x)) (f : α → U256)
    (hx : isDeterministic item = true → ∀ x, Runs (m x) u.ext (fun a _ => f a =
      answerOf (fun b => (F.sha3 b).toU256) F.fields (memoryOf u.m_temp) (storage u.ext) i [x]) fun _ _ => True) :
    Runs (do setFromTop 1 (f (← onExt (m (← back))))) u (fun _ t => ActsOn F storage item u t) fun _ _ => True := by
  obtain ⟨a, rest, hs⟩ := List.length_pos_iff_exists_cons.mp hlength
  rw [back, runs_bind, runs_fromTop (by omega) hlength, runs_bind, runs_onExt]
  have hanswer : Runs (m (u.m_stack.getD 0 0)) u.ext (fun b e => storage e = storage u.ext ∧ (isDeterministic item = true → f b =
      answerOf (fun b => (F.sha3 b).toU256) F.fields (memoryOf u.m_temp) (storage u.ext) i [u.m_stack.getD 0 0])) fun _ _ => True := by
    by_cases hd : isDeterministic item = true
    · exact ((hm _ u.ext hI).and (hx hd _)).mono (fun b e h => ⟨h.1, fun _ => h.2⟩) fun _ _ _ => trivial
    · exact (hm _ u.ext hI).mono (fun b e h => ⟨h, fun hd' => absurd hd' hd⟩) fun _ _ _ => trivial
  refine hanswer.mono (fun b e h => ?_) fun _ _ _ => trivial
  rw [runs_setFromTop (by omega) (by exact hlength)]
  refine actsOn_result hi hsimple hret (by rw [hargs]; exact hlength) (f b) ?_ (fun hd => ?_) (fun _ => rfl) fun _ => h.1
  · rw [hargs, hs]
    rfl
  · rw [h.2 hd, hargs, hs]
    rfl

/-- A copy to the memory. -/
theorem runs_copy_acts (hsimple : Simple i) (hret : (instructionInfo i).ret = 0) (hmemory : invalidatesMemory i = true)
    (data : Bytes) {v : Frame τ} (hlength : 3 ≤ v.m_stack.length) (hargs : (instructionInfo i).args ≤ u.m_stack.length)
    (hstack : v.m_stack.drop 3 = u.m_stack.drop (instructionInfo i).args) (hext : storage v.ext = storage u.ext) :
    Runs (copyDataToMemory data) v (fun _ t => ActsOn F storage item u t) fun _ _ => True := by
  refine (runs_copyDataToMemory data hlength).mono ?_ fun _ _ _ => trivial
  rintro - t ⟨r, w, hw, rfl⟩
  have hframe := hw.frame
  subst hframe
  refine actsOn_none hi hsimple hret hargs hstack (fun h => ?_) fun _ => hext
  rw [hmemory] at h
  cases h

end

theorem actsOn_dup {k : Fin 16} (hi : item.instruction = .DUP k) (hroom : k + 1 ≤ u.m_stack.length) :
    ActsOn F storage item u { u with m_stack := u.m_stack.getD k 0 :: u.m_stack } := by
  refine ⟨by rw [hi]; exact hroom, by rw [hi]; rfl, fun k' hk => ?_, fun k' hk => ?_, fun hret => ?_, fun h => ?_, fun _ => rfl, fun h => ?_,
    fun _ => rfl⟩
  · rw [hi] at hk
    cases hk
    rfl
  · rw [hi] at hk
    cases hk
  · rw [hi] at hret
    exact absurd (Nat.succ.inj hret) (Nat.succ_ne_zero _)
  · rw [hi] at h
    cases h
  · rw [hi] at h
    cases h

theorem actsOn_swap {k : Fin 16} (hi : item.instruction = .SWAP k) (hroom : k + 2 ≤ u.m_stack.length) :
    ActsOn F storage item u { u with m_stack := (u.m_stack.set 0 (u.m_stack.getD (k + 1) 0)).set (k + 1) (u.m_stack.getD 0 0) } := by
  refine ⟨by rw [hi]; exact hroom, ?_, fun k' hk => ?_, fun k' hk => ?_, fun hret => ?_, fun h => ?_, fun _ => rfl, fun h => ?_,
    fun _ => rfl⟩
  · rw [hi]
    show (List.drop (k + 2) _ : List U256) = List.drop (k + 2) u.m_stack
    rw [contents]
    dsimp only
    rw [List.drop_set_of_lt (by omega), List.drop_set_of_lt (by omega)]
  · rw [hi] at hk
    cases hk
  · rw [hi] at hk
    cases hk
    rfl
  · rw [hi] at hret
    exact absurd (Nat.succ.inj hret) (Nat.succ_ne_zero _)
  · rw [hi] at h
    cases h
  · rw [hi] at h
    cases h

variable {i : Instruction} (hi : item.instruction = i)

include hi

/-! ## The instructions with a case of their own -/

omit hi in
/-- A range that is checked is read, also if it is empty. -/
theorem readTemp_checked {v : Frame τ} {a l : U256} (hlength : v.m_temp.length < 2 ^ 32)
    (hin : l ≠ 0 → a.toNat + l.toNat ≤ v.m_temp.length) :
    ∃ touches, readTemp 32 a l v = .ok ((memoryOf v.m_temp).read a l.toNat) { v with touched := touches } := by
  by_cases hl : l = 0
  · subst hl
    refine ⟨⟨a, 0, a.toNat % 2 ^ 32, 0⟩ :: v.touched, ?_⟩
    simp only [readTemp, touch, bind, EStateM.bind]
    rfl
  · exact ⟨_, readTemp_inside hlength (hin hl)⟩

theorem runs_mload_acts (h : i = .MLOAD) (hlength : u.m_temp.length < 2 ^ 32) (hargs : 1 ≤ u.m_stack.length)
    (hin : (u.m_stack.getD 0 0).toNat + 32 ≤ u.m_temp.length) :
    Runs (do setFromTop 1 (BitVec.ofNat 256 (fromBigEndian (← readTemp 32 (← back) 32)))) u
      (fun _ t => ActsOn F storage item u t) fun _ _ => True := by
  subst h
  obtain ⟨a, rest, hs⟩ := List.length_pos_iff_exists_cons.mp hargs
  rw [back, runs_bind, runs_fromTop (by omega) hargs, runs_bind, Runs, readTemp_inside hlength (by exact hin)]
  dsimp only
  rw [runs_setFromTop (by omega) (by exact hargs)]
  refine actsOn_result hi ⟨fun k h => (by cases h), fun k h => (by cases h), by decide, by decide⟩ rfl hargs
    (word (memoryOf u.m_temp) (u.m_stack.getD 0 0)) ?_ (fun _ => ?_) (fun _ => rfl) fun _ => rfl
  · rw [hs]
    rfl
  · rw [hs]
    rfl

theorem runs_sha3_acts (h : i = .SHA3) (hlength : u.m_temp.length < 2 ^ 32) (hargs : 2 ≤ u.m_stack.length)
    (hin : u.m_stack.getD 1 0 ≠ 0 → (u.m_stack.getD 0 0).toNat + (u.m_stack.getD 1 0).toNat ≤ u.m_temp.length) :
    Runs (do
        let inOff ← takeBack
        let inSize ← takeBack
        pushBack (F.sha3 (← readTemp 32 inOff inSize)).toU256) u (fun _ t => ActsOn F storage item u t) fun _ _ => True := by
  subst h
  match hs : u.m_stack, hargs with
  | a :: l :: rest, _ =>
    rw [hs] at hin
    rw [runs_bind, runs_takeBack (by rw [hs]; exact Nat.succ_pos _), runs_bind, runs_takeBack (by rw [hs]; exact Nat.succ_pos _), runs_bind]
    obtain ⟨touches, hread⟩ := readTemp_checked (v := { u with m_stack := rest }) (a := a) (l := l) hlength hin
    have hoperands : u.m_stack.getD 0 0 = a ∧ (u.m_stack.drop 1).getD 0 0 = l ∧ (u.m_stack.drop 1).drop 1 = rest := by
      rw [hs]
      exact ⟨rfl, rfl, rfl⟩
    dsimp only
    rw [hoperands.1, hoperands.2.1, hoperands.2.2, Runs, hread]
    refine actsOn_result hi ⟨fun k h => (by cases h), fun k h => (by cases h), by decide, by decide⟩ rfl (by rw [hs]; exact Nat.le_add_left 2 _)
      (F.sha3 ((memoryOf u.m_temp).read a l.toNat)).toU256 ?_ (fun _ => ?_) (fun _ => rfl) fun _ => rfl
    · rw [hs]
      rfl
    · rw [hs]
      rfl

theorem runs_mstore_acts (h : i = .MSTORE) (hlength : u.m_temp.length < 2 ^ 32) (hargs : 2 ≤ u.m_stack.length)
    (hin : (u.m_stack.getD 0 0).toNat + 32 ≤ u.m_temp.length) :
    Runs (do
        let (place, _) ← touch 32 (← back) 32
        writeTemp place (H256.ofU256 (← fromTop 2)).bytes
        popBack
        popBack) u (fun _ t => ActsOn F storage item u t) fun _ _ => True := by
  subst h
  have hword : (32 : U256).toNat = 32 := rfl
  rw [back, runs_bind, runs_fromTop (by omega) (by omega), runs_bind, Runs, touch_inside hlength (by rw [hword]; exact hin)]
  dsimp only
  rw [runs_bind, runs_fromTop (by omega) (by exact hargs), runs_bind, runs_writeTemp, runs_bind, runs_popBack (by dsimp only; omega),
    runs_popBack (by dsimp only; rw [List.length_drop]; omega)]
  dsimp only
  exact acts_of_store hi (Or.inl rfl) hargs List.drop_drop
    (memoryOf_overwrite hlength (by rw [(H256.ofU256 _).length_eq]; exact hin)) rfl

theorem runs_mstore8_acts (h : i = .MSTORE8) (hargs : 2 ≤ u.m_stack.length) :
    Runs (do
        let (place, _) ← touch 32 (← back) 1
        writeTemp place [UInt8.ofNat ((← fromTop 2) &&& 0xff).toNat]
        popBack
        popBack) u (fun _ t => ActsOn F storage item u t) fun _ _ => True := by
  subst h
  rw [back, runs_bind, runs_fromTop (by omega) (by omega), runs_bind]
  refine (runs_touch 32 (by omega) _ _ _).mono (fun r t ht => ?_) fun _ _ _ => trivial
  have hframe := ht.frame
  subst hframe
  rw [runs_bind, runs_fromTop (by omega) (by exact hargs), runs_bind, runs_writeTemp, runs_bind, runs_popBack (by dsimp only; omega),
    runs_popBack (by dsimp only; rw [List.length_drop]; omega)]
  exact actsOn_none hi ⟨fun k h => (by cases h), fun k h => (by cases h), by decide, by decide⟩ rfl hargs List.drop_drop
    (fun h => by cases h) fun _ => rfl

theorem runs_sstore_acts (hF : StorageLaws F I storage) (hI : I u.ext) (h : i = .SSTORE) (hargs : 2 ≤ u.m_stack.length) :
    Runs (do
        onExt (F.setStore (← back) (← fromTop 2))
        popBack
        popBack) u (fun _ t => ActsOn F storage item u t) fun _ _ => True := by
  subst h
  rw [back, runs_bind, runs_fromTop (by omega) (by omega), runs_bind, runs_fromTop (by omega) hargs, runs_bind, runs_onExt]
  refine (hF.setStore _ _ _ hI).mono (fun _ e he => ?_) fun _ _ _ => trivial
  rw [runs_bind, runs_popBack (by dsimp only; omega), runs_popBack (by dsimp only; rw [List.length_drop]; omega)]
  exact acts_of_store hi (Or.inr rfl) hargs List.drop_drop rfl he

theorem runs_log_acts (hF : StorageLaws F I storage) (hI : I u.ext) (k : Fin 5) (h : i = .LOG k) (hargs : k + 2 ≤ u.m_stack.length) :
    Runs (do
        let topics ← logTopics k
        onExt (F.log topics (← readTemp 32 (← fromTop 1) (← fromTop 2)))
        popMany (k + 2)) u (fun _ t => ActsOn F storage item u t) fun _ _ => True := by
  subst h
  obtain ⟨ts, hts⟩ := logTopics_ok k hargs
  rw [runs_bind, Runs, hts]
  dsimp only
  rw [runs_bind, runs_fromTop (by omega) (by omega), runs_bind, runs_fromTop (by omega) (by omega), runs_bind]
  refine (runs_readTemp 32 (by omega) _ _ _).mono ?_ fun _ _ _ => trivial
  rintro b t ⟨r, ht, -⟩
  have hframe := ht.frame
  subst hframe
  rw [runs_bind, runs_onExt]
  refine (hF.log _ _ _ hI).mono (fun _ e he => ?_) fun _ _ _ => trivial
  rw [Runs, popMany_ok _ (by exact hargs)]
  exact actsOn_none hi ⟨fun k h => (by cases h), fun k h => (by cases h), fun h => (by cases h), fun h => (by cases h)⟩ rfl hargs rfl
    (fun _ => rfl) fun _ => he

theorem runs_create_acts (hF : StorageLaws F I storage) (hI : I u.ext) (ht : item.type = .Operation) (h : i = .CREATE) (hargs : 3 ≤ u.m_stack.length) :
    Runs (execCreate F) u (fun _ t => ActsOn F storage item u t) fun _ _ => True := by
  subst h
  have hsimple : Simple .CREATE := ⟨fun k h => (by cases h), fun k h => (by cases h), by decide, by decide⟩
  have hchance : ¬ isDeterministic item = true := by
    rw [isDeterministic, if_neg (not_not_intro ht), hi]
    exact Bool.false_ne_true
  rw [execCreate, runs_bind, runs_takeBack (by omega), runs_bind, runs_takeBack (by simp; omega), runs_bind,
    runs_takeBack (by simp; omega), runs_bind, runs_onExt]
  simp only [getD_drop, List.drop_drop, Nat.add_zero, Nat.reduceAdd]
  refine (hF.balance _ _ hI).mono (fun b e he => ?_) fun _ _ _ => trivial
  rw [runs_ite]
  refine ⟨fun _ => ?_, fun _ => ?_⟩
  · rw [runs_bind]
    refine (runs_readTemp 32 (by omega) _ _ _).mono ?_ fun _ _ _ => trivial
    rintro init t ⟨r, ht, -⟩
    have hframe := ht.frame
    subst hframe
    rw [runs_bind, runs_get, runs_bind, runs_onExt]
    refine (Runs.self _ _).mono (fun a e' _ => ?_) fun _ _ _ => trivial
    rw [runs_bind, runs_modify, runs_pushBack]
    exact actsOn_result hi hsimple rfl hargs (fromAddress a.1) rfl (fun hd => absurd hd hchance) (fun _ => rfl) fun h => by cases h
  · rw [runs_pushBack]
    exact actsOn_result hi hsimple rfl hargs 0 rfl (fun hd => absurd hd hchance) (fun _ => rfl) fun h => by cases h

theorem runs_call_acts (ht : item.type = .Operation) (h : i = .CALL ∨ i = .CALLCODE ∨ i = .DELEGATECALL)
    (hargs : (instructionInfo i).args ≤ u.m_stack.length) :
    Runs (execCall F i) u (fun _ t => ActsOn F storage item u t) fun _ _ => True := by
  have hsimple : Simple i := by
    rcases h with rfl | rfl | rfl <;>
      exact ⟨fun k h => (by cases h), fun k h => (by cases h), by decide, by decide⟩
  have hinfo : (instructionInfo i).ret = 1 ∧ invalidatesMemory i = true ∧ invalidatesStorage i = true := by
    rcases h with rfl | rfl | rfl <;> exact ⟨rfl, rfl, rfl⟩
  have hchance : ¬ isDeterministic item = true := by
    rw [isDeterministic, if_neg (not_not_intro ht), hi]
    rcases h with rfl | rfl | rfl <;> exact Bool.false_ne_true
  have hacts : ∀ (t : Frame τ) x, t.m_stack = x :: u.m_stack.drop (instructionInfo i).args → ActsOn F storage item u t := by
    intro t x ht
    refine actsOn_result hi hsimple hinfo.1 hargs x ht (fun hd => absurd hd hchance) (fun hm => ?_) fun hs => ?_
    · rw [hinfo.2.1] at hm
      cases hm
    · rw [hinfo.2.2] at hs
      cases hs
  rw [execCall, runs_bind]
  refine (runs_popCallOperands h hargs).mono ?_ fun _ _ hf => hf.elim
  rintro p t ⟨rfl, -, -⟩
  rw [runs_bind, runs_onExt]
  refine (Runs.self _ _).mono (fun b e _ => ?_) fun _ _ _ => trivial
  rw [runs_ite]
  refine ⟨fun _ => ?_, fun _ => ?_⟩
  · rw [runs_bind]
    refine (runs_readTemp 32 (by omega) _ _ _).mono ?_ fun _ _ _ => trivial
    rintro data t ⟨r, ht, -⟩
    have hframe := ht.frame
    subst hframe
    rw [runs_bind]
    refine (runs_touch 32 (by omega) _ _ _).mono ?_ fun _ _ _ => trivial
    intro q t ht
    have hframe := ht.frame
    subst hframe
    rw [runs_bind, runs_onExt]
    refine (Runs.self _ _).mono (fun a e' _ => ?_) fun _ _ _ => trivial
    rw [runs_bind, runs_writeTemp, runs_bind, runs_pushBack, runs_modify]
    exact hacts _ (flag a.success) rfl
  · rw [runs_bind, runs_pushBack, runs_modify]
    exact hacts _ 0 rfl

omit hi in
/-- What an ordinary instruction does once it is checked. -/
theorem runs_ordinary_acts (hF : StorageLaws F I storage) (hI : I u.ext) (ht : item.type = .Operation) (hi : item.instruction = i) (ho : Ordinary i)
    (hpush : ∀ k, i ≠ .PUSH k) (hargs : (instructionInfo i).args ≤ u.m_stack.length)
    (hcovers : ∀ r ∈ ranges i u.m_stack, r.2 ≠ 0 → r.1.toNat + r.2.toNat ≤ u.m_temp.length) (hlength : u.m_temp.length < 2 ^ 32) :
    Runs (execOrdinaryOpcode F i) u (fun _ t => ActsOn F storage item u t) fun _ _ => True := by
  have hnext : ∀ m : M τ Unit, Runs m u (fun _ t => ActsOn F storage item u t) (fun _ _ => True) →
      Runs (do m; pure (u.m_curPC + 1) : M τ Nat) u (fun _ t => ActsOn F storage item u t) fun _ _ => True := by
    intro m hm
    rw [runs_bind]
    exact hm.mono (fun _ t h => h) fun _ _ h => h
  have hoperator : ∀ {o : Operator}, operator i = some o →
      Runs (execOrdinaryOpcode F i) u (fun _ t => ActsOn F storage item u t) fun _ _ => True := by
    intro o ho
    rw [← hi] at ho hargs ⊢
    exact acts_operator ht ho hargs
  have hsimple : (∀ k, i ≠ .DUP k) → (∀ k, i ≠ .SWAP k) → i ≠ .MSTORE ∧ i ≠ .SSTORE → Simple i := fun h1 h2 h => ⟨h1, h2, h.1, h.2⟩
  cases i with
  | ADD | MUL | SUB | DIV | SDIV | MOD | SMOD | EXP | LT | GT | SLT | SGT | EQ | AND | OR | XOR | BYTE | SIGNEXTEND
  | NOT | ISZERO | ADDMOD | MULMOD => exact hoperator rfl
  | ADDRESS | ORIGIN | CALLER | CALLVALUE | CALLDATASIZE | CODESIZE | GASPRICE | COINBASE | TIMESTAMP | NUMBER
  | DIFFICULTY | GASLIMIT =>
    exact actsOn_push hi (hsimple (fun k h => by cases h) (fun k h => by cases h) (by decide)) rfl rfl fun _ => rfl
  | PC | MSIZE | GAS =>
    refine actsOn_push hi (hsimple (fun k h => by cases h) (fun k h => by cases h) (by decide)) rfl rfl fun hd => ?_
    rw [isDeterministic, if_neg (not_not_intro ht), hi] at hd
    cases hd
  | CALLDATALOAD | BLOCKHASH =>
    exact hnext _ (runs_unary_acts hi (hsimple (fun k h => by cases h) (fun k h => by cases h) (by decide)) rfl rfl hargs _ fun _ => rfl)
  | BALANCE =>
    refine hnext _ (runs_ask hi (hsimple (fun k h => by cases h) (fun k h => by cases h) (by decide)) rfl rfl hargs hI
      (fun x => hF.balance (asAddress x)) id fun hd => ?_)
    rw [isDeterministic, if_neg (not_not_intro ht), hi] at hd
    cases hd
  | EXTCODESIZE =>
    refine hnext _ (runs_ask hi (hsimple (fun k h => by cases h) (fun k h => by cases h) (by decide)) rfl rfl hargs hI
      (fun x => hF.codeAt (asAddress x)) (fun c => BitVec.ofNat 256 c.length) fun hd => ?_)
    rw [isDeterministic, if_neg (not_not_intro ht), hi] at hd
    cases hd
  | SLOAD =>
    exact hnext _ (runs_ask hi (hsimple (fun k h => by cases h) (fun k h => by cases h) (by decide)) rfl rfl hargs hI
      hF.store_leaves id fun _ x => hF.store x u.ext hI)
  | CALLDATACOPY | CODECOPY =>
    exact hnext _ (runs_copy_acts hi (hsimple (fun k h => by cases h) (fun k h => by cases h) (by decide)) rfl rfl _ hargs hargs rfl rfl)
  | EXTCODECOPY =>
    refine hnext _ ?_
    rw [runs_bind, runs_takeBack (by exact lt_of_lt_of_le (by decide) hargs), runs_bind, runs_onExt]
    refine (hF.codeAt _ _ hI).mono (fun code e he => ?_) fun _ _ _ => trivial
    refine runs_copy_acts hi (hsimple (fun k h => by cases h) (fun k h => by cases h) (by decide)) rfl rfl code ?_ hargs List.drop_drop he
    rw [List.length_drop]
    exact Nat.le_sub_of_add_le hargs
  | POP =>
    refine hnext _ ?_
    have hone : 0 < u.m_stack.length := hargs
    rw [runs_popBack hone]
    exact actsOn_none hi (hsimple (fun k h => by cases h) (fun k h => by cases h) (by decide)) rfl hargs rfl (fun _ => rfl) fun _ => rfl
  | JUMPDEST =>
    exact actsOn_none hi (hsimple (fun k h => by cases h) (fun k h => by cases h) (by decide)) rfl hargs rfl (fun _ => rfl) fun _ => rfl
  | JUMP =>
    rw [execOrdinaryOpcode, runs_bind, runs_get]
    dsimp only
    have hone : 1 ≤ u.m_stack.length := hargs
    rw [back, runs_bind, runs_fromTop (by omega) hone, runs_bind]
    refine (runs_verifyJumpDest _ _ _).mono ?_ fun _ _ _ => trivial
    rintro pc t ⟨rfl, -⟩
    rw [runs_bind, runs_popBack hone, runs_pure]
    exact actsOn_none hi (hsimple (fun k h => by cases h) (fun k h => by cases h) (by decide)) rfl hargs rfl (fun _ => rfl) fun _ => rfl
  | JUMPI =>
    have htwo : 2 ≤ u.m_stack.length := hargs
    have hpop : ∀ pc : Nat, Runs (do popBack; popBack; pure pc) u (fun _ t => ActsOn F storage item u t) fun _ _ => True := by
      intro pc
      rw [runs_bind, runs_popBack (by omega), runs_bind, runs_popBack (by rw [List.length_drop]; omega), runs_pure]
      exact actsOn_none hi (hsimple (fun k h => by cases h) (fun k h => by cases h) (by decide)) rfl hargs List.drop_drop (fun _ => rfl)
        fun _ => rfl
    rw [execOrdinaryOpcode, runs_bind, runs_get]
    dsimp only
    rw [runs_bind, runs_fromTop (by omega) htwo]
    by_cases hc : u.m_stack.getD (2 - 1) 0 ≠ 0
    · rw [if_pos hc, back, runs_bind, runs_fromTop (by omega) (by omega), runs_bind]
      refine (runs_verifyJumpDest _ _ _).mono ?_ fun _ _ _ => trivial
      rintro pc t ⟨rfl, -⟩
      exact hpop pc
    · rw [if_neg hc, runs_bind, runs_pure]
      exact hpop _
  | DUP k =>
    refine hnext _ ?_
    have hroom : k + 1 ≤ u.m_stack.length := hargs
    rw [runs_bind, runs_fromTop (by omega) hroom, runs_pushBack]
    exact actsOn_dup hi hroom
  | SWAP k =>
    refine hnext _ ?_
    have hroom : k + 2 ≤ u.m_stack.length := hargs
    rw [back, runs_bind, runs_fromTop (by omega) (by omega), runs_bind, runs_fromTop (by omega) hroom, runs_bind,
      runs_setFromTop (by omega) (by omega), runs_setFromTop (by omega) (by rw [List.length_set]; exact hroom)]
    exact actsOn_swap hi hroom
  | MLOAD => exact hnext _ (runs_mload_acts hi rfl hlength hargs (hcovers _ List.mem_cons_self (show (32 : U256) ≠ 0 by decide)))
  | SHA3 => exact hnext _ (runs_sha3_acts hi rfl hlength hargs fun hne => hcovers _ List.mem_cons_self hne)
  | MSTORE => exact hnext _ (runs_mstore_acts hi rfl hlength hargs (hcovers _ List.mem_cons_self (show (32 : U256) ≠ 0 by decide)))
  | MSTORE8 => exact hnext _ (runs_mstore8_acts hi rfl hargs)
  | SSTORE => exact hnext _ (runs_sstore_acts hi hF hI rfl hargs)
  | LOG k => exact hnext _ (runs_log_acts hi hF hI k rfl hargs)
  | PUSH k => exact absurd rfl (hpush k)
  | CREATE | CALL | CALLCODE | DELEGATECALL | RETURN | SUICIDE | STOP | INVALID b => exact ho.elim

omit hi in
/-- What an instruction does once it is checked. -/
theorem runs_perform_acts (hF : StorageLaws F I storage) (hI : I u.ext) (ht : item.type = .Operation) (hpush : ∀ k, item.instruction ≠ .PUSH k)
    {J : τ → Prop} {s : Frame τ} (hu : Checked F J item.instruction s u) (hlength : u.m_temp.length < 2 ^ 32) :
    Runs (perform F item.instruction) u (fun r t => r = none → ActsOn F storage item u t) fun _ _ => True := by
  have hargs : (instructionInfo item.instruction).args ≤ u.m_stack.length := by
    rw [hu.stack]
    exact hu.args
  have hcovers := hu.covers
  rw [← hu.stack] at hcovers
  have hvalid := hu.valid
  have hspecial : ∀ m : M τ Unit, Runs m u (fun _ t => ActsOn F storage item u t) (fun _ _ => True) →
      Runs (do m; modify fun s => { s with m_curPC := s.m_curPC + 1 }; pure none : M τ (Option Bytes)) u
        (fun r t => r = none → ActsOn F storage item u t) fun _ _ => True := by
    intro m hm
    rw [runs_bind]
    exact hm.mono (fun _ t h _ => h) fun _ _ h => h
  have hordinary : Ordinary item.instruction →
      Runs (do let pc ← execOrdinaryOpcode F item.instruction; modify fun s => { s with m_curPC := pc }; pure none : M τ (Option Bytes)) u
        (fun r t => r = none → ActsOn F storage item u t) fun _ _ => True := by
    intro ho
    rw [runs_bind]
    exact (runs_ordinary_acts hF hI ht rfl ho hpush hargs hcovers hlength).mono (fun _ t h _ => h) fun _ _ h => h
  generalize hi : item.instruction = i at hargs hordinary hpush hvalid
  cases i with
  | CREATE => exact hspecial _ (runs_create_acts hi hF hI ht rfl hargs)
  | CALL => exact hspecial _ (runs_call_acts hi ht (.inl rfl) hargs)
  | CALLCODE => exact hspecial _ (runs_call_acts hi ht (.inr (.inl rfl)) hargs)
  | DELEGATECALL => exact hspecial _ (runs_call_acts hi ht (.inr (.inr rfl)) hargs)
  | RETURN =>
    rw [perform, runs_bind, runs_takeBack (by exact lt_of_lt_of_le Nat.zero_lt_two hargs), runs_bind]
    refine (Runs.self _ _).mono (fun _ _ _ => ?_) fun _ _ _ => trivial
    rw [runs_bind]
    exact (Runs.self _ _).mono (fun _ _ _ h => by cases h) fun _ _ _ => trivial
  | SUICIDE =>
    rw [perform, runs_bind]
    refine (Runs.self _ _).mono (fun _ _ _ => ?_) fun _ _ _ => trivial
    rw [runs_bind]
    exact (Runs.self _ _).mono (fun _ _ _ h => by cases h) fun _ _ _ => trivial
  | STOP => exact fun h => by cases h
  | INVALID b => exact absurd rfl hvalid
  | _ => exact hordinary trivial

end

/-! ## Turns of the loop -/

/-- A turn checks the instruction and then runs it. -/
theorem execInstruction_cases {inst : Instruction} {s t : Frame τ} {r : Option Bytes} (h : execInstruction F inst s = .ok r t) :
    ∃ u, checkRequirements F inst (fresh s) = .ok () u ∧ perform F inst u = .ok r t := by
  rw [execInstruction] at h
  obtain ⟨_, s', hfresh, h⟩ := bind_eq_result_ok.mp h
  cases hfresh
  obtain ⟨_, u, hcheck, hperform⟩ := bind_eq_result_ok.mp h
  exact ⟨u, hcheck, hperform⟩

section

variable (hF : StorageLaws F I storage) (C : Contract F I X G (2 ^ 256)) {s t : Frame τ} (hI : I s.ext)

include hF C hI

/-- What is checked in a turn that goes on, and what was done then. -/
theorem turn_cases {inst : Instruction} (h : execInstruction F inst s = .ok none t) :
    ∃ u, Checked F I inst (fresh s) u ∧ contents storage u = contents storage s ∧ perform F inst u = .ok none t ∧ Ran F G I inst u t := by
  obtain ⟨u, hcheck, hperform⟩ := execInstruction_cases h
  have hu := checked_keeps hF C (s := fresh s) hI hcheck
  have hu' : Checked F I inst (fresh s) u :=
    ⟨hu.valid, hu.args, hu.room, hu.stack, hu.curPC, hu.jumpDests, hu.touched, hu.ext.1, hu.grows, hu.words, hu.covers, hu.gas⟩
  exact ⟨u, hu', contents_checked (s := fresh s) hu, hperform, ((runs_perform C hu' (gasBelow_top inst u)).of_ok hperform).2⟩

theorem temp_le_of_turn {inst : Instruction} (h : execInstruction F inst s = .ok none t) : s.m_temp.length ≤ t.m_temp.length := by
  obtain ⟨u, hu, _, _, hran⟩ := turn_cases hF C hI h
  rw [hran.temp]
  exact hu.temp_le

/-- What a turn does that goes on. -/
theorem acts_of_turn {item : AssemblyItem} (ht : item.type = .Operation) (hpush : ∀ k, item.instruction ≠ .PUSH k)
    (h : execInstruction F item.instruction s = .ok none t) (hlength : t.m_temp.length < 2 ^ 32) : ActsOn F storage item s t := by
  obtain ⟨u, hu, hsame, hperform, hran⟩ := turn_cases hF C hI h
  have hsmall : u.m_temp.length < 2 ^ 32 := by rwa [← hran.temp]
  have hacts := (runs_perform_acts hF hu.ext ht hpush hu hsmall).of_ok hperform rfl
  rw [ActsOn, hsame] at hacts
  exact hacts

theorem contents_jumpdest (h : execInstruction F .JUMPDEST s = .ok none t) : contents storage t = contents storage s := by
  obtain ⟨u, _, hsame, hperform, _⟩ := turn_cases hF C hI h
  rw [← hsame]
  cases hperform
  rfl

theorem contents_push {k : Fin 32} (h : execInstruction F (.PUSH k) s = .ok none t) :
    contents storage t = { contents storage s with stack := pushValue F.fields (s.m_curPC + 1) (k + 1) 0 :: s.m_stack } := by
  obtain ⟨u, hu, hsame, hperform, _⟩ := turn_cases hF C hI h
  have hpc : u.m_curPC = s.m_curPC := hu.curPC
  have hstack : u.m_stack = s.m_stack := hu.stack
  rw [← hsame, ← hpc, ← hstack]
  cases hperform
  rfl

end

/-! ## Items in the code -/

/-- The code has an item at a place, where what it pushes that only assembling knows is given. -/
def Decodes (f : ExtFields) (pushed : AssemblyItem → U256) (item : AssemblyItem) (pc : Nat) : Prop :=
  match item.type with
  | .UndefinedItem => False
  | .Operation => Instruction.ofByte (f.getCode pc) = item.instruction ∧ ∀ k, item.instruction ≠ .PUSH k
  | .Tag => Instruction.ofByte (f.getCode pc) = .JUMPDEST
  | .Push => ∃ k, Instruction.ofByte (f.getCode pc) = .PUSH k ∧ pushValue f (pc + 1) (k + 1) 0 = item.data
  | _ => ∃ k, Instruction.ofByte (f.getCode pc) = .PUSH k ∧ pushValue f (pc + 1) (k + 1) 0 = pushed item

/-- A turn of the loop does what the item says that the code has at its place. -/
theorem itemActs_of_step (hF : StorageLaws F I storage) (C : Contract F I X G (2 ^ 256)) {pushed : AssemblyItem → U256}
    {item : AssemblyItem} {s t : Frame τ} (hI : I s.ext) (hd : Decodes F.fields pushed item s.m_curPC) (h : step F s = .ok none t) (hlength : t.m_temp.length < 2 ^ 32) :
    KnownState.ItemActs (fun b => (F.sha3 b).toU256) F.fields pushed item (contents storage s) (contents storage t) := by
  have hstep : execInstruction F (Instruction.ofByte (F.fields.getCode s.m_curPC)) s = .ok none t := h
  have hpush : item.type ≠ .Tag → item.type ≠ .Operation → item.type ≠ .UndefinedItem →
      (∃ k, Instruction.ofByte (F.fields.getCode s.m_curPC) = .PUSH k ∧
        pushValue F.fields (s.m_curPC + 1) (k + 1) 0 = if item.type = .Push then item.data else pushed item) →
      KnownState.ItemActs (fun b => (F.sha3 b).toU256) F.fields pushed item (contents storage s) (contents storage t) := by
    rintro htag hoperation hdefined ⟨k, hk, hvalue⟩
    rw [hk] at hstep
    rw [contents_push hF C hI hstep, hvalue]
    exact .push htag hoperation hdefined
  unfold Decodes at hd
  split at hd
  · exact hd.elim
  · rename_i ht
    rw [hd.1] at hstep
    exact .operation ht hd.2 (acts_of_turn hF C hI ht hd.2 hstep hlength)
  · rename_i ht
    rw [hd] at hstep
    rw [contents_jumpdest hF C hI hstep]
    exact .tag ht
  · rename_i ht
    refine hpush (by rw [ht]; decide) (by rw [ht]; decide) (by rw [ht]; decide) ?_
    rw [if_pos ht]
    exact hd
  · rename_i hdefined hoperation htag hno
    refine hpush htag hoperation hdefined ?_
    rw [if_neg hno]
    exact hd

end VM

end Webthree
