import Webthree.Evm.Vm

/-!
# What one instruction can do

The functions of the externalities keep what a `Contract` says, and each instruction of the machine is described once: what
`checkRequirements` has made sure of when it returns, and what running the instruction then does to the stack, the memory, the
gas and the externalities. Everything about runs is derived from these descriptions.
-/

namespace Webthree

namespace VM

variable {σ : Type}

/-! ## Contracts of the externalities -/

/-- The exceptions of the source, which `Executive::go` catches. -/
def Caught : Stop → Prop
  | .vm _ | .other _ => True
  | .fault _ | .outOfFuel => False

/-- What is kept when a computation throws an exception. -/
def Kept (I : σ → Prop) (e : Stop) (t : σ) : Prop := Caught e → I t

/-- What the machine relies on: every function of the externalities keeps `I` and throws only what `X` allows, and `G` relates
the gas that a call or a creation is given, if it is less than `limit`, to the gas it hands back. -/
structure Contract (F : ExtVMFace σ) (I : σ → Prop) (X : Stop → Prop) (G : U256 → U256 → Prop) (limit : Nat) : Prop where
  store : ∀ k s, I s → Runs (F.store k) s (fun _ t => I t) (fun e t => Kept I e t ∧ X e)
  setStore : ∀ k v s, I s → Runs (F.setStore k v) s (fun _ t => I t) (fun e t => Kept I e t ∧ X e)
  balance : ∀ a s, I s → Runs (F.balance a) s (fun _ t => I t) (fun e t => Kept I e t ∧ X e)
  codeAt : ∀ a s, I s → Runs (F.codeAt a) s (fun _ t => I t) (fun e t => Kept I e t ∧ X e)
  «exists» : ∀ a s, I s → Runs (F.exists a) s (fun _ t => I t) (fun e t => Kept I e t ∧ X e)
  suicide : ∀ a s, I s → Runs (F.suicide a) s (fun _ t => I t) (fun e t => Kept I e t ∧ X e)
  create : ∀ v gas b s, I s → gas.toNat < limit → F.fields.depth < 1024 →
    Runs (F.create v gas b) s (fun r t => I t ∧ G gas r.2) (fun e t => Kept I e t ∧ X e)
  call : ∀ p s, I s → p.gas.toNat < limit → F.fields.depth < 1024 →
    Runs (F.call p) s (fun r t => I t ∧ G p.gas r.gas) (fun e t => Kept I e t ∧ X e)
  log : ∀ ts b s, I s → Runs (F.log ts b) s (fun _ t => I t) (fun e t => Kept I e t ∧ X e)
  addRefunds : ∀ v s, I s → Runs (F.addRefunds v) s (fun _ t => I t) (fun e t => Kept I e t ∧ X e)

/-- Calling the externalities changes nothing of the machine. -/
theorem runs_onExt {α : Type} (m : EStateM Stop σ α) (s : Frame σ) (Q : α → Frame σ → Prop) (E : Stop → Frame σ → Prop) :
    Runs (onExt m) s Q E ↔ Runs m s.ext (fun a e => Q a { s with ext := e }) (fun x e => E x { s with ext := e }) := by
  unfold Runs onExt
  cases m s.ext with
  | ok a e => exact Iff.rfl
  | error x e => exact Iff.rfl

/-! ## The stack -/

/-- Elements are counted from the top, from one on. -/
theorem fromTop_ok {s : Frame σ} {k : Nat} {x : U256} (h : s.m_stack[k]? = some x) : fromTop (k + 1) s = .ok x s := by
  simp only [fromTop, h]

theorem fromTop_eq {s : Frame σ} {k : Nat} (h0 : 0 < k) (h : k ≤ s.m_stack.length) :
    fromTop k s = .ok (s.m_stack.getD (k - 1) 0) s := by
  obtain ⟨n, rfl⟩ : ∃ n, k = n + 1 := ⟨k - 1, by omega⟩
  have hn : n < s.m_stack.length := by omega
  have hx : s.m_stack[n]? = some (s.m_stack.getD n 0) := by
    rw [List.getD_eq_getElem?_getD, List.getElem?_eq_getElem hn, Option.getD_some]
  exact fromTop_ok hx

theorem runs_fromTop {s : Frame σ} {k : Nat} (h0 : 0 < k) (h : k ≤ s.m_stack.length) (Q : U256 → Frame σ → Prop)
    (E : Stop → Frame σ → Prop) : Runs (fromTop k) s Q E ↔ Q (s.m_stack.getD (k - 1) 0) s := by
  rw [Runs, fromTop_eq h0 h]

/-- An element is set from the top. -/
theorem runs_setFromTop {s : Frame σ} {k : Nat} (h0 : 0 < k) (h : k ≤ s.m_stack.length) (x : U256)
    (Q : Unit → Frame σ → Prop) (E : Stop → Frame σ → Prop) :
    Runs (setFromTop k x) s Q E ↔ Q () { s with m_stack := s.m_stack.set (k - 1) x } := by
  rw [Runs, setFromTop, if_pos ⟨h0, h⟩]

/-- The top element is dropped. -/
theorem runs_popBack {s : Frame σ} (h : 0 < s.m_stack.length) (Q : Unit → Frame σ → Prop) (E : Stop → Frame σ → Prop) :
    Runs popBack s Q E ↔ Q () { s with m_stack := s.m_stack.drop 1 } := by
  rw [Runs, popBack]
  cases hs : s.m_stack with
  | nil => rw [hs] at h; exact absurd h (Nat.lt_irrefl 0)
  | cons x rest => exact Iff.rfl

theorem runs_pushBack (s : Frame σ) (x : U256) (Q : Unit → Frame σ → Prop) (E : Stop → Frame σ → Prop) :
    Runs (pushBack x) s Q E ↔ Q () { s with m_stack := x :: s.m_stack } := Iff.rfl

/-- The top element is taken. -/
theorem runs_takeBack {s : Frame σ} (h : 0 < s.m_stack.length) (Q : U256 → Frame σ → Prop) (E : Stop → Frame σ → Prop) :
    Runs takeBack s Q E ↔ Q (s.m_stack.getD 0 0) { s with m_stack := s.m_stack.drop 1 } := by
  rw [takeBack, runs_bind, back, runs_fromTop (by omega) h, runs_bind, runs_popBack h, runs_pure]

/-- A computation that only changes the stack, as an instruction with `args` and `ret` does. -/
def StackOnly (m : M σ Unit) (s : Frame σ) (args ret : Nat) : Prop :=
  ∃ st, m s = .ok () { s with m_stack := st } ∧ st.length + args = s.m_stack.length + ret

/-- A computation is known from a description that fits one end only. -/
theorem eq_ok_of_runs {α : Type} {m : M σ α} {s : Frame σ} {a : α} {t : Frame σ}
    (h : Runs m s (fun b u => b = a ∧ u = t) (fun _ _ => False)) : m s = .ok a t := by
  unfold Runs at h
  cases hm : m s with
  | ok b u =>
    rw [hm] at h
    obtain ⟨rfl, rfl⟩ := h
    rfl
  | error e u => rw [hm] at h; exact h.elim

/-- A function of one argument replaces it. -/
theorem stackOnly_unary (f : U256 → U256) {s : Frame σ} (h : 1 ≤ s.m_stack.length) : StackOnly (unary f) s 1 1 := by
  refine ⟨s.m_stack.set 0 (f (s.m_stack.getD 0 0)), eq_ok_of_runs ?_, by simp⟩
  rw [unary, back, runs_bind, runs_fromTop (by omega) h, runs_setFromTop (by omega) h]
  exact ⟨rfl, rfl⟩

/-- A function of two arguments puts its result in their place. -/
theorem stackOnly_binary (f : U256 → U256 → U256) {s : Frame σ} (h : 2 ≤ s.m_stack.length) : StackOnly (binary f) s 2 1 := by
  refine ⟨(s.m_stack.set 1 (f (s.m_stack.getD 0 0) (s.m_stack.getD 1 0))).drop 1, eq_ok_of_runs ?_, ?_⟩
  · rw [binary, back, runs_bind, runs_fromTop (by omega) (by omega), runs_bind, runs_fromTop (by omega) h, runs_bind,
      runs_setFromTop (by omega) h, runs_popBack (by simp; omega)]
    exact ⟨rfl, rfl⟩
  · rw [List.length_drop, List.length_set]
    omega

/-- So does one of three. -/
theorem stackOnly_ternary (f : U256 → U256 → U256 → U256) {s : Frame σ} (h : 3 ≤ s.m_stack.length) :
    StackOnly (ternary f) s 3 1 := by
  refine ⟨((s.m_stack.set 2 (f (s.m_stack.getD 0 0) (s.m_stack.getD 1 0) (s.m_stack.getD 2 0))).drop 1).drop 1,
    eq_ok_of_runs ?_, ?_⟩
  · rw [ternary, back, runs_bind, runs_fromTop (by omega) (by omega), runs_bind, runs_fromTop (by omega) (by omega),
      runs_bind, runs_fromTop (by omega) h, runs_bind, runs_setFromTop (by omega) h, runs_bind,
      runs_popBack (by simp; omega), runs_popBack (by simp; omega)]
    exact ⟨rfl, rfl⟩
  · rw [List.length_drop, List.length_drop, List.length_set]
    omega

theorem stackOnly_pushBack (x : U256) (s : Frame σ) : StackOnly (pushBack x) s 0 1 :=
  ⟨x :: s.m_stack, rfl, rfl⟩

theorem stackOnly_popBack {s : Frame σ} (h : 1 ≤ s.m_stack.length) : StackOnly popBack s 1 0 := by
  refine ⟨s.m_stack.drop 1, eq_ok_of_runs ?_, ?_⟩
  · rw [runs_popBack h]
    exact ⟨rfl, rfl⟩
  · rw [List.length_drop]
    omega

/-- `DUP` doubles an element. -/
theorem stackOnly_dup (n : Nat) {s : Frame σ} (h : n + 1 ≤ s.m_stack.length) :
    StackOnly (do pushBack (← fromTop (n + 1))) s (n + 1) (n + 2) := by
  refine ⟨s.m_stack.getD n 0 :: s.m_stack, eq_ok_of_runs ?_, by rw [List.length_cons]; omega⟩
  rw [runs_bind, runs_fromTop (by omega) h]
  exact ⟨rfl, rfl⟩

/-- `SWAP` changes two elements for each other. -/
theorem stackOnly_swap (n : Nat) {s : Frame σ} (h : n + 2 ≤ s.m_stack.length) :
    StackOnly (do let d ← back; setFromTop 1 (← fromTop (n + 2)); setFromTop (n + 2) d) s (n + 2) (n + 2) := by
  refine ⟨(s.m_stack.set 0 (s.m_stack.getD (n + 1) 0)).set (n + 1) (s.m_stack.getD 0 0), eq_ok_of_runs ?_, by simp⟩
  rw [back, runs_bind, runs_fromTop (by omega) (by omega), runs_bind, runs_fromTop (by omega) h, runs_bind,
    runs_setFromTop (by omega) (by omega), runs_setFromTop (by omega) (by simpa using h)]
  exact ⟨rfl, rfl⟩

/-! ## The memory -/

/-- The truncated range is the range of the operands, and lies inside a memory of `len` bytes unless it is empty. -/
def Touch.Exact (len : Nat) (τ : Touch) : Prop :=
  τ.count = τ.size.toNat ∧ (τ.count ≠ 0 → τ.place = τ.offset.toNat ∧ τ.place + τ.count ≤ len)

/-- A range of operands lies inside a memory of `len` bytes, which 32 bits can address. -/
def FitsRange (len : Nat) (r : U256 × U256) : Prop :=
  len < 2 ^ 32 ∧ (r.2 ≠ 0 → r.1.toNat + r.2.toNat ≤ len)

/-- What fits in memory is not truncated. -/
theorem exact_of_fits {len w : Nat} (hw : 32 ≤ w) {off size : U256} (h : FitsRange len (off, size)) :
    Touch.Exact len ⟨off, size, off.toNat % 2 ^ w, size.toNat % 2 ^ w⟩ := by
  obtain ⟨hlen, hr⟩ := h
  have hpow : 2 ^ 32 ≤ 2 ^ w := Nat.pow_le_pow_right (by omega) hw
  by_cases h0 : size = 0
  · subst h0
    exact ⟨by simp, by simp⟩
  · have hsum := hr h0
    have hs : size.toNat % 2 ^ w = size.toNat := Nat.mod_eq_of_lt (by simp only at hsum; omega)
    have ho : off.toNat % 2 ^ w = off.toNat := by
      refine Nat.mod_eq_of_lt ?_
      simp only at hsum
      omega
    simp only [Touch.Exact, hs, ho]
    exact ⟨trivial, fun _ => ⟨trivial, hsum⟩⟩

/-- What touching a range records. -/
structure Touched (s : Frame σ) (off size : U256) (r : Nat × Nat) (t : Frame σ) : Prop where
  frame : t = { s with touched := ⟨off, size, r.1, r.2⟩ :: s.touched }
  inside : r.2 = 0 ∨ r.1 + r.2 ≤ s.m_temp.length
  exact : FitsRange s.m_temp.length (off, size) → Touch.Exact s.m_temp.length ⟨off, size, r.1, r.2⟩

theorem runs_touch (w : Nat) (hw : 32 ≤ w) (off size : U256) (s : Frame σ) :
    Runs (touch w off size) s (Touched s off size)
      (fun e t => e = .fault .temp ∧ t.ext = s.ext ∧ t.io_gas = s.io_gas ∧ t.m_temp = s.m_temp ∧ ¬ FitsRange s.m_temp.length (off, size)) := by
  unfold Runs touch
  by_cases hc : size.toNat % 2 ^ w = 0 ∨ off.toNat % 2 ^ w + size.toNat % 2 ^ w ≤ s.m_temp.length
  · simp only [hc, if_true]
    exact ⟨rfl, hc, exact_of_fits hw⟩
  · simp only [hc, if_false]
    refine ⟨trivial, trivial, trivial, trivial, fun hf => hc ?_⟩
    obtain ⟨-, he⟩ := exact_of_fits hw hf
    by_cases h0 : size.toNat % 2 ^ w = 0
    · exact Or.inl h0
    · exact Or.inr (he h0).2

/-- Reading memory touches the range and returns as many bytes. -/
theorem runs_readTemp (w : Nat) (hw : 32 ≤ w) (off size : U256) (s : Frame σ) :
    Runs (readTemp w off size) s (fun b t => ∃ r, Touched s off size r t ∧ b.length ≤ r.2)
      (fun e t => e = .fault .temp ∧ t.ext = s.ext ∧ t.io_gas = s.io_gas ∧ t.m_temp = s.m_temp ∧ ¬ FitsRange s.m_temp.length (off, size)) := by
  rw [readTemp, runs_bind]
  refine (runs_touch w hw off size s).mono (fun r t ht => ?_) (fun e t h => h)
  rw [runs_bind, runs_get, runs_pure]
  exact ⟨r, ht, List.length_take_le _ _⟩

/-- What is written within memory changes no length. -/
theorem length_overwrite {m : Bytes} {p : Nat} {bs : Bytes} (h : bs.length = 0 ∨ p + bs.length ≤ m.length) :
    (overwrite m p bs).length = m.length := by
  unfold overwrite
  rcases h with h | h
  · rw [List.length_eq_zero_iff.mp h, List.append_nil, List.length_nil, Nat.add_zero, List.take_append_drop]
  · rw [List.length_append, List.length_append, List.length_take, List.length_drop]
    omega

theorem runs_writeTemp (p : Nat) (bs : Bytes) (s : Frame σ) (Q : Unit → Frame σ → Prop) (E : Stop → Frame σ → Prop) :
    Runs (writeTemp p bs) s Q E ↔ Q () { s with m_temp := overwrite s.m_temp p bs } := Iff.rfl

/-! ## Ordinary instructions -/

/-- The ranges of memory that the operands of an instruction stand for. -/
def ranges (inst : Instruction) (st : List U256) : List (U256 × U256) :=
  match inst with
  | .MLOAD | .MSTORE => [(st.getD 0 0, 32)]
  | .MSTORE8 => [(st.getD 0 0, 1)]
  | .SHA3 | .RETURN | .LOG _ => [(st.getD 0 0, st.getD 1 0)]
  | .CALLDATACOPY | .CODECOPY => [(st.getD 0 0, st.getD 2 0)]
  | .EXTCODECOPY => [(st.getD 1 0, st.getD 3 0)]
  | .CREATE => [(st.getD 1 0, st.getD 2 0)]
  | .CALL | .CALLCODE => [(st.getD 3 0, st.getD 4 0), (st.getD 5 0, st.getD 6 0)]
  | .DELEGATECALL => [(st.getD 2 0, st.getD 3 0), (st.getD 4 0, st.getD 5 0)]
  | _ => []

/-- The memory holds all the operands of an instruction stand for. -/
def Fits (inst : Instruction) (s : Frame σ) : Prop := ∀ r ∈ ranges inst s.m_stack, FitsRange s.m_temp.length r

/-- `callParams->gas`: what is asked for, and the stipend when value is sent. -/
def callGasOf (F : ExtVMFace σ) (inst : Instruction) (st : List U256) : U256 :=
  if inst ≠ .DELEGATECALL ∧ st.getD 2 0 > 0 then st.getD 0 0 + F.evmSchedule.callStipend else st.getD 0 0

/-- What an instruction leaves of the gas: a creation is given all of it and a call what it asks for, and nothing else changes
it. -/
def GasAfter (F : ExtVMFace σ) (G : U256 → U256 → Prop) (inst : Instruction) (s t : Frame σ) : Prop :=
  t.io_gas = s.io_gas ∨
    match inst with
    | .CREATE => G s.io_gas t.io_gas
    | .CALL | .CALLCODE | .DELEGATECALL =>
      ∃ g : U256, (g = callGasOf F inst s.m_stack ∨ G (callGasOf F inst s.m_stack) g) ∧ t.io_gas = s.io_gas + g
    | _ => False

/-- What running an instruction has done when it goes on to the next. -/
structure Ran (F : ExtVMFace σ) (G : U256 → U256 → Prop) (I : σ → Prop) (inst : Instruction) (s t : Frame σ) : Prop where
  height : t.m_stack.length + (instructionInfo inst).args = s.m_stack.length + (instructionInfo inst).ret
  temp : t.m_temp.length = s.m_temp.length
  gas : GasAfter F G inst s t
  jumpDests : t.m_jumpDests = s.m_jumpDests
  ext : I t.ext
  touched : Fits inst s → ∀ τ ∈ t.touched, τ ∈ s.touched ∨ Touch.Exact s.m_temp.length τ

/-- What running an instruction has done when it throws. -/
structure Failed (I : σ → Prop) (X : Stop → Prop) (inst : Instruction) (s : Frame σ) (e : Stop) (t : Frame σ) : Prop where
  ext : Kept I e t.ext
  gas : t.io_gas = s.io_gas
  temp : t.m_temp = s.m_temp
  touched : Fits inst s → ∀ τ ∈ t.touched, τ ∈ s.touched ∨ Touch.Exact s.m_temp.length τ
  reason : X e ∨ e = .vm .BadJumpDestination ∨ (e = .fault .temp ∧ ¬ Fits inst s)

section Ordinary

variable {F : ExtVMFace σ} {I : σ → Prop} {X : Stop → Prop} {G : U256 → U256 → Prop} {limit : Nat}

/-- An instruction that only changes the stack. -/
theorem ran_stackOnly {inst : Instruction} {m : M σ Unit} {s : Frame σ} (hI : I s.ext)
    (h : StackOnly m s (instructionInfo inst).args (instructionInfo inst).ret) :
    Runs m s (fun _ t => Ran F G I inst s t) (Failed I X inst s) := by
  obtain ⟨st, hm, hlen⟩ := h
  rw [Runs, hm]
  exact ⟨hlen, rfl, Or.inl rfl, rfl, hI, fun _ τ hτ => Or.inl hτ⟩

/-- An instruction that asks the externalities about the address at the back, or the place there, and puts the answer in its
stead. -/
theorem ran_ask {α : Type} {inst : Instruction} (hi : (instructionInfo inst).args = 1 ∧ (instructionInfo inst).ret = 1)
    (m : U256 → EStateM Stop σ α) (f : α → U256) {s : Frame σ} (h : 1 ≤ s.m_stack.length)
    (hm : ∀ x, Runs (m x) s.ext (fun _ t => I t) (fun e t => Kept I e t ∧ X e)) :
    Runs (do setFromTop 1 (f (← onExt (m (← back))))) s (fun _ t => Ran F G I inst s t) (Failed I X inst s) := by
  rw [back, runs_bind, runs_fromTop (by omega) h, runs_bind, runs_onExt]
  refine (hm _).mono (fun a e he => ?_) (fun x e he => ⟨he.1, rfl, rfl, fun _ τ hτ => Or.inl hτ, Or.inl he.2⟩)
  rw [runs_setFromTop (by omega) (by exact h)]
  exact ⟨by rw [hi.1, hi.2, List.length_set], rfl, Or.inl rfl, rfl, he, fun _ τ hτ => Or.inl hτ⟩

/-- One more range touched. -/
theorem Touched.mem {s s' t : Frame σ} {off size : U256} {r : Nat × Nat} (h : Touched s' off size r t)
    (inst : Instruction) (hlen : s'.m_temp.length = s.m_temp.length) (hr : (off, size) ∈ ranges inst s.m_stack)
    (hs : Fits inst s → ∀ τ ∈ s'.touched, τ ∈ s.touched ∨ Touch.Exact s.m_temp.length τ) :
    Fits inst s → ∀ τ ∈ t.touched, τ ∈ s.touched ∨ Touch.Exact s.m_temp.length τ := by
  intro hf τ hτ
  rw [h.frame] at hτ
  rcases List.mem_cons.mp hτ with rfl | hτ
  · exact Or.inr (hlen ▸ h.exact (by rw [hlen]; exact hf _ hr))
  · exact hs hf τ hτ

/-- What is left when a range of the operands is not inside the memory. -/
theorem failed_of_touch {inst : Instruction} {s t : Frame σ} {e : Stop} {r : U256 × U256} (hr : r ∈ ranges inst s.m_stack)
    (hI : I t.ext) (hg : t.io_gas = s.io_gas) (htemp : t.m_temp = s.m_temp) (he : e = .fault .temp)
    (hnf : ¬ FitsRange s.m_temp.length r) : Failed I X inst s e t :=
  ⟨fun _ => hI, hg, htemp, fun hf => absurd (hf r hr) hnf, Or.inr (Or.inr ⟨he, fun hf => hnf (hf r hr)⟩)⟩

theorem getD_drop (l : List U256) (n k : Nat) : (l.drop n).getD k 0 = l.getD (n + k) 0 := by
  rw [List.getD_eq_getElem?_getD, List.getD_eq_getElem?_getD, List.getElem?_drop]

/-- `SHA3` is run as its row says. -/
theorem ran_sha3 {s : Frame σ} (hI : I s.ext) (h : 2 ≤ s.m_stack.length) :
    Runs (do
        let inOff ← takeBack
        let inSize ← takeBack
        pushBack (F.sha3 (← readTemp 32 inOff inSize)).toU256) s
      (fun _ t => Ran F G I .SHA3 s t) (Failed I X .SHA3 s) := by
  rw [runs_bind, runs_takeBack (by omega), runs_bind, runs_takeBack (by simp; omega), runs_bind]
  simp only [getD_drop, List.drop_drop]
  refine (runs_readTemp 32 (by omega) _ _ _).mono (fun b t ht => ?_) (fun e t he => ?_)
  · obtain ⟨r, ht, -⟩ := ht
    have hm := ht.mem .SHA3 (s := s) rfl List.mem_cons_self (fun _ τ hτ => Or.inl hτ)
    have hfr := ht.frame
    subst hfr
    rw [runs_pushBack]
    refine ⟨?_, rfl, Or.inl rfl, rfl, hI, hm⟩
    simp only [List.length_cons, List.length_drop, instructionInfo]
    omega
  · obtain ⟨rfl, hext, hg, htemp, hnf⟩ := he
    exact failed_of_touch List.mem_cons_self (by rw [hext]; exact hI) hg htemp rfl hnf

/-- A copy copies no more than it is asked to, and reads inside its source. -/
theorem sizeToBeCopied_spec {dataSize : Nat} (hd : dataSize < 2 ^ 64) (bigIndex size : Nat) :
    sizeToBeCopied dataSize bigIndex (bigIndex % 2 ^ 64) size ≤ size ∧
      (sizeToBeCopied dataSize bigIndex (bigIndex % 2 ^ 64) size = 0 ∨
        bigIndex % 2 ^ 64 + sizeToBeCopied dataSize bigIndex (bigIndex % 2 ^ 64) size ≤ dataSize) := by
  unfold sizeToBeCopied
  split
  · split
    · exact ⟨Nat.zero_le _, Or.inl rfl⟩
    · have hi : bigIndex % 2 ^ 64 = bigIndex := Nat.mod_eq_of_lt (by omega)
      rw [hi]
      exact ⟨by omega, Or.inr (by omega)⟩
  · have hi := Nat.mod_le bigIndex (2 ^ 64)
    exact ⟨Nat.le_refl _, Or.inr (by omega)⟩

/-- What a copy writes. -/
def copied (data : Bytes) (bigIndex count : Nat) : Bytes :=
  let n := sizeToBeCopied (data.length % 2 ^ 64) bigIndex (bigIndex % 2 ^ 64) count
  (data.drop (bigIndex % 2 ^ 64)).take n ++ List.replicate (count - n) 0

/-- So many bytes are copied. -/
theorem length_copied (data : Bytes) (bigIndex count : Nat) : (copied data bigIndex count).length = count := by
  have hd : data.length % 2 ^ 64 < 2 ^ 64 := Nat.mod_lt _ (by omega)
  have hle := Nat.mod_le data.length (2 ^ 64)
  obtain ⟨h1, h2⟩ := sizeToBeCopied_spec hd bigIndex count
  unfold copied
  rw [List.length_append, List.length_take, List.length_drop, List.length_replicate]
  omega

/-- The bytes of the source from the index on, and zeros behind its end. -/
def sourceBytes (data : Bytes) (index size : Nat) : Bytes := (List.range size).map fun i => data.getD (index + i) 0

/-- Behind the data there are zeros. -/
theorem sourceBytes_eq (data : Bytes) (index size : Nat) :
    sourceBytes data index size = (data.drop index).take size ++ List.replicate (size - (data.length - index)) 0 := by
  unfold sourceBytes
  apply List.ext_getElem
  · simp only [List.length_map, List.length_range, List.length_append, List.length_take, List.length_drop,
      List.length_replicate]
    omega
  · intro i h1 h2
    rw [List.length_map, List.length_range] at h1
    rw [List.getElem_map, List.getElem_range, List.getD_eq_getElem?_getD]
    by_cases hi : index + i < data.length
    · rw [List.getElem_append_left (by rw [List.length_take, List.length_drop]; omega), List.getElem_take,
        List.getElem_drop, List.getElem?_eq_getElem hi, Option.getD_some]
    · rw [List.getElem_append_right (by rw [List.length_take, List.length_drop]; omega), List.getElem_replicate,
        List.getElem?_eq_none (by omega), Option.getD_none]

/-- What a copy writes are the bytes of the source from the index on, whatever the index and the size. -/
theorem copied_eq {data : Bytes} (hd : data.length < 2 ^ 64) (bigIndex count : Nat) :
    copied data bigIndex count = sourceBytes data bigIndex count := by
  rw [sourceBytes_eq, copied, Nat.mod_eq_of_lt hd]
  by_cases hb : bigIndex ≤ data.length
  · have hi : bigIndex % 2 ^ 64 = bigIndex := Nat.mod_eq_of_lt (by omega)
    rw [hi]
    unfold sizeToBeCopied
    split
    · rename_i hgt
      rw [if_neg (by omega), List.take_of_length_le (by rw [List.length_drop]),
        List.take_of_length_le (by rw [List.length_drop]; omega)]
    · rename_i hle
      rw [show count - (data.length - bigIndex) = count - count by omega]
  · have hn : sizeToBeCopied data.length bigIndex (bigIndex % 2 ^ 64) count = 0 := by
      unfold sizeToBeCopied
      rw [if_pos (by omega), if_pos (by omega)]
    rw [hn, List.take_zero, List.drop_eq_nil_of_le (by omega), List.take_nil]
    rw [show count - (data.length - bigIndex) = count - 0 by omega]

/-- `copyDataToMemory` takes three entries off and writes the copy at the first, or the memory does not hold the range. -/
theorem runs_copyDataToMemory (data : Bytes) {s : Frame σ} (h : 3 ≤ s.m_stack.length) :
    Runs (copyDataToMemory data) s
      (fun _ t => ∃ r u, Touched { s with m_stack := s.m_stack.drop 3 } (s.m_stack.getD 0 0) (s.m_stack.getD 2 0) r u ∧
        t = { u with m_temp := overwrite s.m_temp r.1 (copied data (s.m_stack.getD 1 0).toNat r.2) })
      (fun e t => e = .fault .temp ∧ t.ext = s.ext ∧ t.io_gas = s.io_gas ∧ t.m_temp = s.m_temp ∧
        ¬ FitsRange s.m_temp.length (s.m_stack.getD 0 0, s.m_stack.getD 2 0)) := by
  rw [copyDataToMemory, runs_bind, runs_takeBack (by omega), runs_bind, runs_takeBack (by simp; omega), runs_bind,
    runs_takeBack (by simp; omega), runs_bind]
  simp only [getD_drop, List.drop_drop, Nat.add_zero, Nat.reduceAdd]
  refine (runs_touch 64 (by omega) _ _ _).mono (fun r u hu => ?_) (fun e t he => he)
  have hd : data.length % 2 ^ 64 < 2 ^ 64 := Nat.mod_lt _ (by omega)
  have hle := Nat.mod_le data.length (2 ^ 64)
  obtain ⟨-, h2⟩ := sizeToBeCopied_spec hd (s.m_stack.getD 1 0).toNat r.2
  rw [if_neg (by omega), runs_writeTemp]
  refine ⟨r, u, hu, ?_⟩
  rw [hu.frame]
  rfl

/-- A copy over a touched range keeps the size of the memory. -/
theorem Touched.length_copy {s u : Frame σ} {off size : U256} {r : Nat × Nat} (h : Touched s off size r u) (data : Bytes)
    (i : Nat) : (overwrite s.m_temp r.1 (copied data i r.2)).length = s.m_temp.length :=
  length_overwrite (by rw [length_copied]; exact h.inside)

/-- `CALLDATACOPY` and `CODECOPY` -/
theorem ran_copy {inst : Instruction} (hi : (instructionInfo inst).args = 3 ∧ (instructionInfo inst).ret = 0)
    (data : Bytes) {s : Frame σ} (hr : (s.m_stack.getD 0 0, s.m_stack.getD 2 0) ∈ ranges inst s.m_stack) (hI : I s.ext)
    (h : 3 ≤ s.m_stack.length) :
    Runs (copyDataToMemory data) s (fun _ t => Ran F G I inst s t) (Failed I X inst s) := by
  refine (runs_copyDataToMemory data h).mono ?_ ?_
  · rintro - t ⟨r, u, hu, rfl⟩
    have hm := hu.mem inst (s := s) rfl hr (fun _ τ hτ => Or.inl hτ)
    have hl := hu.length_copy data (s.m_stack.getD 1 0).toNat
    have hfr := hu.frame
    subst hfr
    refine ⟨?_, hl, Or.inl rfl, rfl, hI, hm⟩
    rw [hi.1, hi.2]
    simp only [List.length_drop]
    omega
  · rintro e t ⟨rfl, hext, hg, htemp, hnf⟩
    exact failed_of_touch hr (by rw [hext]; exact hI) hg htemp rfl hnf

/-- `EXTCODECOPY` is run as its row says. -/
theorem ran_extCodeCopy (C : Contract F I X G limit) {s : Frame σ} (hI : I s.ext) (h : 4 ≤ s.m_stack.length) :
    Runs (do
        let a ← takeBack
        copyDataToMemory (← onExt (F.codeAt (asAddress a)))) s
      (fun _ t => Ran F G I .EXTCODECOPY s t) (Failed I X .EXTCODECOPY s) := by
  rw [runs_bind, runs_takeBack (by omega), runs_bind, runs_onExt]
  refine (C.codeAt _ _ hI).mono (fun code e he => ?_) (fun x e he => ⟨he.1, rfl, rfl, fun _ τ hτ => Or.inl hτ, Or.inl he.2⟩)
  refine (runs_copyDataToMemory code (by simp; omega)).mono ?_ ?_
  · rintro - t ⟨r, u, hu, rfl⟩
    simp only [getD_drop, List.drop_drop, Nat.add_zero, Nat.reduceAdd] at hu ⊢
    have hm := hu.mem .EXTCODECOPY (s := s) rfl List.mem_cons_self (fun _ τ hτ => Or.inl hτ)
    have hl := hu.length_copy code (s.m_stack.getD 2 0).toNat
    have hfr := hu.frame
    subst hfr
    refine ⟨?_, hl, Or.inl rfl, rfl, he, hm⟩
    simp only [List.length_drop, instructionInfo]
    omega
  · rintro e t ⟨rfl, hext, hg, htemp, hnf⟩
    simp only [getD_drop, Nat.reduceAdd] at hnf
    exact failed_of_touch List.mem_cons_self (by rw [hext]; exact he) hg htemp rfl hnf

/-- `MLOAD` is run as its row says. -/
theorem ran_mload {s : Frame σ} (hI : I s.ext) (h : 1 ≤ s.m_stack.length) :
    Runs (do setFromTop 1 (BitVec.ofNat 256 (fromBigEndian (← readTemp 32 (← back) 32)))) s
      (fun _ t => Ran F G I .MLOAD s t) (Failed I X .MLOAD s) := by
  rw [back, runs_bind, runs_fromTop (by omega) h, runs_bind]
  refine (runs_readTemp 32 (by omega) _ _ _).mono ?_ ?_
  · rintro b t ⟨r, ht, -⟩
    have hm := ht.mem .MLOAD (s := s) rfl List.mem_cons_self (fun _ τ hτ => Or.inl hτ)
    have hfr := ht.frame
    subst hfr
    rw [runs_setFromTop (by omega) (by exact h)]
    exact ⟨by simp only [List.length_set, instructionInfo], rfl, Or.inl rfl, rfl, hI, hm⟩
  · rintro e t ⟨rfl, hext, hg, htemp, hnf⟩
    exact failed_of_touch List.mem_cons_self (by rw [hext]; exact hI) hg htemp rfl hnf

/-- `MSTORE` and `MSTORE8`: bytes of the second entry, as many as are touched at the first. -/
theorem ran_mstore {inst : Instruction} (hi : (instructionInfo inst).args = 2 ∧ (instructionInfo inst).ret = 0)
    (size : U256) (f : U256 → Bytes) (hf : ∀ x, (f x).length = size.toNat % 2 ^ 32) {s : Frame σ}
    (hr : (s.m_stack.getD 0 0, size) ∈ ranges inst s.m_stack) (hI : I s.ext) (h : 2 ≤ s.m_stack.length) :
    Runs (do
        let (place, _) ← touch 32 (← back) size
        writeTemp place (f (← fromTop 2))
        popBack
        popBack) s
      (fun _ t => Ran F G I inst s t) (Failed I X inst s) := by
  rw [back, runs_bind, runs_fromTop (by omega) (by omega), runs_bind]
  have hcount : Runs (touch 32 (s.m_stack.getD 0 0) size) s (fun r _ => r.2 = size.toNat % 2 ^ 32) (fun _ _ => True) := by
    unfold Runs touch
    split
    · rename_i heq
      dsimp only at heq
      split at heq
      · cases heq; rfl
      · cases heq
    · trivial
  refine ((runs_touch 32 (by omega) _ _ _).and hcount).mono ?_ ?_
  · rintro r t ⟨ht, hc⟩
    have hm := ht.mem inst (s := s) rfl hr (fun _ τ hτ => Or.inl hτ)
    have hins := ht.inside
    have hfr := ht.frame
    subst hfr
    rw [runs_bind, runs_fromTop (by omega) (by exact h), runs_bind, runs_writeTemp, runs_bind,
      runs_popBack (by show 0 < s.m_stack.length; omega), runs_popBack (by simp only [List.length_drop]; omega)]
    refine ⟨?_, length_overwrite (by rw [hf, ← hc]; exact hins), Or.inl rfl, rfl, hI, hm⟩
    rw [hi.1, hi.2]
    simp only [List.length_drop]
    omega
  · rintro e t ⟨⟨rfl, hext, hg, htemp, hnf⟩, -⟩
    exact failed_of_touch hr (by rw [hext]; exact hI) hg htemp rfl hnf

/-- `SSTORE` is run as its row says. -/
theorem ran_sstore (C : Contract F I X G limit) {s : Frame σ} (hI : I s.ext) (h : 2 ≤ s.m_stack.length) :
    Runs (do
        onExt (F.setStore (← back) (← fromTop 2))
        popBack
        popBack) s
      (fun _ t => Ran F G I .SSTORE s t) (Failed I X .SSTORE s) := by
  rw [back, runs_bind, runs_fromTop (by omega) (by omega), runs_bind, runs_fromTop (by omega) h, runs_bind, runs_onExt]
  refine (C.setStore _ _ _ hI).mono (fun _ e he => ?_) (fun x e he => ⟨he.1, rfl, rfl, fun _ τ hτ => Or.inl hτ, Or.inl he.2⟩)
  rw [runs_bind, runs_popBack (by show 0 < s.m_stack.length; omega), runs_popBack (by simp only [List.length_drop]; omega)]
  refine ⟨?_, rfl, Or.inl rfl, rfl, he, fun _ τ hτ => Or.inl hτ⟩
  simp only [List.length_drop, instructionInfo]
  omega

/-- A destination of a jump is one in the list, or it throws. -/
theorem runs_verifyJumpDest (dest : U256) (dests : List Nat) (s : Frame σ) :
    Runs (verifyJumpDest dest dests) s (fun pc t => t = s ∧ pc ∈ dests) (fun e t => t = s ∧ e = .vm .BadJumpDestination) := by
  unfold verifyJumpDest
  dsimp only
  rw [runs_ite]
  refine ⟨fun _ => ⟨rfl, rfl⟩, fun h => ⟨rfl, ?_⟩⟩
  by_contra hc
  exact h (Or.inl hc)

/-- `JUMP` is run as its row says. -/
theorem ran_jump {s : Frame σ} (hI : I s.ext) (h : 1 ≤ s.m_stack.length) :
    Runs (do
        let pc ← verifyJumpDest (← back) s.m_jumpDests
        popBack
        pure pc) s
      (fun _ t => Ran F G I .JUMP s t) (Failed I X .JUMP s) := by
  rw [back, runs_bind, runs_fromTop (by omega) h, runs_bind]
  refine (runs_verifyJumpDest _ _ _).mono ?_ ?_
  · rintro pc t ⟨rfl, -⟩
    rw [runs_bind, runs_popBack h, runs_pure]
    refine ⟨?_, rfl, Or.inl rfl, rfl, hI, fun _ τ hτ => Or.inl hτ⟩
    simp only [List.length_drop, instructionInfo]
    omega
  · rintro e t ⟨rfl, rfl⟩
    exact ⟨fun _ => hI, rfl, rfl, fun _ τ hτ => Or.inl hτ, Or.inr (Or.inl rfl)⟩

/-- `JUMPI` is run as its row says. -/
theorem ran_jumpi {s : Frame σ} (hI : I s.ext) (h : 2 ≤ s.m_stack.length) :
    Runs (do
        let pc ← if (← fromTop 2) ≠ 0 then verifyJumpDest (← back) s.m_jumpDests else pure (s.m_curPC + 1)
        popBack
        popBack
        pure pc) s
      (fun _ t => Ran F G I .JUMPI s t) (Failed I X .JUMPI s) := by
  have hpop : ∀ pc : Nat, Runs (do popBack; popBack; pure pc) s (fun _ t => Ran F G I .JUMPI s t) (Failed I X .JUMPI s) := by
    intro pc
    rw [runs_bind, runs_popBack (by omega), runs_bind, runs_popBack (by simp only [List.length_drop]; omega), runs_pure]
    refine ⟨?_, rfl, Or.inl rfl, rfl, hI, fun _ τ hτ => Or.inl hτ⟩
    simp only [List.length_drop, instructionInfo]
    omega
  rw [runs_bind, runs_fromTop (by omega) h]
  by_cases hc : s.m_stack.getD (2 - 1) 0 ≠ 0
  · rw [if_pos hc, back, runs_bind, runs_fromTop (by omega) (by omega), runs_bind]
    refine (runs_verifyJumpDest _ _ _).mono ?_ ?_
    · rintro pc t ⟨rfl, -⟩
      exact hpop pc
    · rintro e t ⟨rfl, rfl⟩
      exact ⟨fun _ => hI, rfl, rfl, fun _ τ hτ => Or.inl hτ, Or.inr (Or.inl rfl)⟩
  · rw [if_neg hc, runs_bind, runs_pure]
    exact hpop _

/-- The topics of a log are entries of the stack. -/
theorem logTopics_ok (n : Nat) {s : Frame σ} (h : n + 2 ≤ s.m_stack.length) : ∃ ts, logTopics n s = .ok ts s := by
  induction n with
  | zero => exact ⟨[], rfl⟩
  | succ n ih =>
    obtain ⟨ts, hts⟩ := ih (by omega)
    refine ⟨ts ++ [H256.ofU256 (s.m_stack.getD (n + 2) 0)], eq_ok_of_runs ?_⟩
    rw [logTopics, runs_bind, Runs, hts]
    dsimp only
    rw [runs_bind, runs_fromTop (by omega) (by omega)]
    exact ⟨rfl, rfl⟩

theorem popMany_ok (n : Nat) {s : Frame σ} (h : n ≤ s.m_stack.length) :
    popMany n s = .ok () { s with m_stack := s.m_stack.drop n } := by
  induction n generalizing s with
  | zero => rfl
  | succ n ih =>
    refine eq_ok_of_runs ?_
    rw [popMany, runs_bind, runs_popBack (by omega), Runs, ih (by simp only [List.length_drop]; omega)]
    simp only [List.drop_drop, Nat.add_comm 1 n, and_self]

/-- A `LOG` is run as its row says. -/
theorem ran_log (C : Contract F I X G limit) (n : Fin 5) {s : Frame σ} (hI : I s.ext) (h : n + 2 ≤ s.m_stack.length) :
    Runs (do
        let topics ← logTopics n
        onExt (F.log topics (← readTemp 32 (← fromTop 1) (← fromTop 2)))
        popMany (n + 2)) s
      (fun _ t => Ran F G I (.LOG n) s t) (Failed I X (.LOG n) s) := by
  obtain ⟨ts, hts⟩ := logTopics_ok n h
  rw [runs_bind, Runs, hts]
  dsimp only
  rw [runs_bind, runs_fromTop (by omega) (by omega), runs_bind, runs_fromTop (by omega) (by omega), runs_bind]
  refine (runs_readTemp 32 (by omega) _ _ _).mono ?_ ?_
  · rintro b t ⟨r, ht, -⟩
    have hm := ht.mem (.LOG n) (s := s) rfl List.mem_cons_self (fun _ τ hτ => Or.inl hτ)
    have hfr := ht.frame
    subst hfr
    rw [runs_bind, runs_onExt]
    refine (C.log _ _ _ hI).mono (fun _ e he => ?_) (fun x e he => ⟨he.1, rfl, rfl, hm, Or.inl he.2⟩)
    rw [Runs, popMany_ok _ (by exact h)]
    refine ⟨?_, rfl, Or.inl rfl, rfl, he, hm⟩
    simp only [List.length_drop, instructionInfo]
    omega
  · rintro e t ⟨rfl, hext, hg, htemp, hnf⟩
    exact failed_of_touch List.mem_cons_self (by rw [hext]; exact hI) hg htemp rfl hnf

/-- The instructions that `execImpl` leaves to `execOrdinaryOpcode`. -/
def Ordinary : Instruction → Prop
  | .CREATE | .CALL | .CALLCODE | .DELEGATECALL | .RETURN | .SUICIDE | .STOP | .INVALID _ => False
  | _ => True

/-- What an ordinary instruction does when the stack holds its arguments. -/
theorem runs_execOrdinaryOpcode (C : Contract F I X G limit) {inst : Instruction} (ho : Ordinary inst) {s : Frame σ}
    (hI : I s.ext) (h : (instructionInfo inst).args ≤ s.m_stack.length) :
    Runs (execOrdinaryOpcode F inst) s (fun _ t => Ran F G I inst s t) (Failed I X inst s) := by
  have hnext : ∀ m : M σ Unit, Runs m s (fun _ t => Ran F G I inst s t) (Failed I X inst s) →
      Runs (do m; pure (s.m_curPC + 1)) s (fun _ t => Ran F G I inst s t) (Failed I X inst s) := by
    intro m hm
    rw [runs_bind]
    exact hm.mono (fun _ t ht => ht) (fun _ t ht => ht)
  have hstack : ∀ m : M σ Unit, StackOnly m s (instructionInfo inst).args (instructionInfo inst).ret →
      Runs (do m; pure (s.m_curPC + 1)) s (fun _ t => Ran F G I inst s t) (Failed I X inst s) :=
    fun m hm => hnext m (ran_stackOnly hI hm)
  rw [execOrdinaryOpcode, runs_bind, runs_get]
  cases inst with
  | ADD | MUL | SUB | DIV | SDIV | MOD | SMOD | EXP | LT | GT | SLT | SGT | EQ | AND | OR | XOR | BYTE | SIGNEXTEND =>
    exact hstack _ (stackOnly_binary _ h)
  | NOT | ISZERO | CALLDATALOAD | BLOCKHASH => exact hstack _ (stackOnly_unary _ h)
  | ADDMOD | MULMOD => exact hstack _ (stackOnly_ternary _ h)
  | ADDRESS | ORIGIN | CALLER | CALLVALUE | CALLDATASIZE | CODESIZE | GASPRICE | COINBASE | TIMESTAMP | NUMBER
  | DIFFICULTY | GASLIMIT | PC | MSIZE | GAS => exact hstack _ (stackOnly_pushBack _ s)
  | POP => exact hstack _ (stackOnly_popBack h)
  | PUSH n =>
    dsimp only
    rw [runs_bind]
    exact (ran_stackOnly hI (stackOnly_pushBack _ s)).mono (fun _ t ht => ht) (fun _ t ht => ht)
  | DUP n => exact hstack _ (stackOnly_dup n h)
  | SWAP n => exact hstack _ (stackOnly_swap n h)
  | SHA3 => exact hnext _ (ran_sha3 hI h)
  | BALANCE => exact hnext _ (ran_ask ⟨rfl, rfl⟩ (fun x => F.balance (asAddress x)) id h (fun x => C.balance _ _ hI))
  | EXTCODESIZE =>
    exact hnext _ (ran_ask ⟨rfl, rfl⟩ (fun x => F.codeAt (asAddress x)) (fun c => BitVec.ofNat 256 c.length) h
      (fun x => C.codeAt _ _ hI))
  | SLOAD => exact hnext _ (ran_ask ⟨rfl, rfl⟩ F.store id h (fun x => C.store _ _ hI))
  | CALLDATACOPY | CODECOPY => exact hnext _ (ran_copy ⟨rfl, rfl⟩ _ List.mem_cons_self hI h)
  | EXTCODECOPY => exact hnext _ (ran_extCodeCopy C hI h)
  | MLOAD => exact hnext _ (ran_mload hI h)
  | MSTORE =>
    exact hnext _ (ran_mstore ⟨rfl, rfl⟩ 32 (fun x => (H256.ofU256 x).bytes) (fun x => (H256.ofU256 x).length_eq)
      List.mem_cons_self hI h)
  | MSTORE8 =>
    exact hnext _ (ran_mstore ⟨rfl, rfl⟩ 1 (fun x => [UInt8.ofNat (x &&& 0xff).toNat]) (fun x => rfl)
      List.mem_cons_self hI h)
  | SSTORE => exact hnext _ (ran_sstore C hI h)
  | JUMP => exact ran_jump hI h
  | JUMPI => exact ran_jumpi hI h
  | JUMPDEST => exact ⟨rfl, rfl, Or.inl rfl, rfl, hI, fun _ τ hτ => Or.inl hτ⟩
  | LOG n => exact hnext _ (ran_log C n hI h)
  | CREATE | CALL | CALLCODE | DELEGATECALL | RETURN | SUICIDE | STOP | INVALID b => exact ho.elim

end Ordinary

/-! ## Charging -/

section Charging

variable {F : ExtVMFace σ} {I : σ → Prop} {X : Stop → Prop} {G : U256 → U256 → Prop} {limit : Nat}

/-- What an instruction costs at least, without the memory. -/
def minGas (sched : EVMSchedule) (inst : Instruction) (st : List U256) : Nat :=
  match inst with
  | .SSTORE => min sched.sstoreSetGas.toNat sched.sstoreResetGas.toNat
  | .SLOAD => sched.sloadGas.toNat
  | .SHA3 => sched.sha3Gas.toNat
  | .JUMPDEST => 1
  | .LOG n => (sched.logGas + sched.logTopicGas * BitVec.ofNat 256 n).toNat
  | .CALL | .CALLCODE =>
    (st.getD 0 0).toNat + sched.callGas.toNat + if st.getD 2 0 > 0 then sched.callValueTransferGas.toNat else 0
  | .DELEGATECALL => (st.getD 0 0).toNat + sched.callGas.toNat
  | .CREATE => sched.createGas.toNat
  | .EXP => (sched.expGas + sched.expByteGas * BitVec.ofNat 256 (32 - H256.firstBitSet (st.getD 1 0) / 8)).toNat
  | inst =>
    match (instructionInfo inst).gasPriceTier.index with
    | some tier => (sched.tierStepGas tier).toNat
    | none => 0

/-- What `costOf` makes sure of: the price is at least `minGas`, and the memory is sized for all ranges of the operands. -/
structure Priced (F : ExtVMFace σ) (I : σ → Prop) (inst : Instruction) (s : Frame σ) (c : Cost) (t : Frame σ) : Prop where
  frame : t = { s with ext := t.ext }
  ext : I t.ext
  gas : minGas F.evmSchedule inst s.m_stack ≤ c.runGas
  covers : ∀ r ∈ ranges inst s.m_stack, r.2 ≠ 0 → r.1.toNat + r.2.toNat ≤ c.newTempSize

/-- The memory that is paid for holds what is touched. -/
theorem le_memNeed {offset size : U256} (h : size ≠ 0) : offset.toNat + size.toNat ≤ memNeed offset size := by
  rw [memNeed, if_pos h]

/-- `SSTORE` has its price. -/
theorem priced_sstore (C : Contract F I X G limit) {s : Frame σ} (hI : I s.ext) (h : 2 ≤ s.m_stack.length) (tierGas : Nat) :
    Runs (costOf F .SSTORE tierGas) s (Priced F I .SSTORE s) (fun e t => Kept I e t.ext ∧ t.io_gas = s.io_gas ∧ X e) := by
  have hset : minGas F.evmSchedule .SSTORE s.m_stack ≤ F.evmSchedule.sstoreSetGas.toNat := Nat.min_le_left _ _
  have hreset : minGas F.evmSchedule .SSTORE s.m_stack ≤ F.evmSchedule.sstoreResetGas.toNat := Nat.min_le_right _ _
  have hno : ∀ c : Cost, ∀ r ∈ ranges .SSTORE s.m_stack, r.2 ≠ 0 → r.1.toNat + r.2.toNat ≤ c.newTempSize :=
    fun c r hr => absurd hr List.not_mem_nil
  rw [costOf, runs_bind, runs_get]
  dsimp only
  rw [back, runs_bind, runs_fromTop (by omega) (by omega), runs_bind, runs_onExt]
  refine (C.store _ _ hI).mono (fun v e he => ?_) (fun x e he => ⟨he.1, rfl, he.2⟩)
  rw [runs_bind, runs_fromTop (by omega) (by exact h), runs_ite]
  refine ⟨fun _ => ⟨rfl, he, hset, hno _⟩, fun _ => ?_⟩
  rw [runs_bind, runs_fromTop (by omega) (by show 1 ≤ s.m_stack.length; omega), runs_bind, runs_onExt]
  refine (C.store _ _ he).mono (fun v' e' he' => ?_) (fun x e he => ⟨he.1, rfl, he.2⟩)
  rw [runs_bind, runs_fromTop (by omega) (by exact h), runs_ite]
  refine ⟨fun _ => ?_, fun _ => ⟨rfl, he', hreset, hno _⟩⟩
  rw [runs_bind, runs_onExt]
  refine (C.addRefunds _ _ he').mono (fun _ e'' he'' => ?_) (fun x e he => ⟨he.1, rfl, he.2⟩)
  exact ⟨rfl, he'', hreset, hno _⟩

/-- A call to a new account is told by the externalities. -/
theorem runs_callsNewAccount (C : Contract F I X G limit) (inst : Instruction) {s : Frame σ} (hI : I s.ext)
    (h : 2 ≤ s.m_stack.length) :
    Runs (callsNewAccount F inst) s (fun _ t => t = { s with ext := t.ext } ∧ I t.ext) (fun e t => Kept I e t.ext ∧ t.io_gas = s.io_gas ∧ X e) := by
  rw [callsNewAccount, runs_ite]
  refine ⟨fun _ => ?_, fun _ => ⟨rfl, hI⟩⟩
  rw [runs_bind, runs_fromTop (by omega) h, runs_bind, runs_onExt]
  exact (C.exists _ _ hI).mono (fun _ e he => ⟨rfl, he⟩) (fun x e he => ⟨he.1, rfl, he.2⟩)

/-- A transfer of value is told by the stack. -/
theorem runs_transfersValue (inst : Instruction) {s : Frame σ} (h : 3 ≤ s.m_stack.length) (Q : Bool → Frame σ → Prop)
    (E : Stop → Frame σ → Prop) :
    Runs (transfersValue inst) s Q E ↔ Q (decide (inst ≠ .DELEGATECALL ∧ s.m_stack.getD 2 0 > 0)) s := by
  by_cases hd : inst ≠ .DELEGATECALL
  · rw [transfersValue, if_pos hd, runs_bind, runs_fromTop (by omega) h, runs_pure]
    simp only [hd, ne_eq, not_false_eq_true, true_and]
  · rw [transfersValue, if_neg hd, runs_pure]
    simp only [hd, false_and, decide_false]

/-- A call has its price. -/
theorem priced_costOfCall (C : Contract F I X G limit) {inst : Instruction}
    (hi : inst = .CALL ∨ inst = .CALLCODE ∨ inst = .DELEGATECALL) {s : Frame σ} (hI : I s.ext)
    (h : (instructionInfo inst).args ≤ s.m_stack.length) :
    Runs (costOfCall F inst) s (Priced F I inst s) (fun e t => Kept I e t.ext ∧ t.io_gas = s.io_gas ∧ X e) := by
  have hlen : 6 ≤ s.m_stack.length ∧ (inst ≠ .DELEGATECALL → 7 ≤ s.m_stack.length) := by
    rcases hi with rfl | rfl | rfl <;> simp only [instructionInfo] at h <;> simp <;> omega
  have hoff : (if inst = .DELEGATECALL then 3 else 4) + 3 ≤ s.m_stack.length := by
    by_cases hd : inst = .DELEGATECALL
    · rw [if_pos hd]; exact hlen.1
    · rw [if_neg hd]; exact hlen.2 hd
  have hpos : 0 < (if inst = .DELEGATECALL then 3 else 4) := by split <;> omega
  rw [costOfCall, runs_bind, runs_fromTop (by omega) (by omega), runs_bind]
  refine (runs_callsNewAccount C inst hI (by omega)).mono (fun b t ht => ?_) (fun e t he => he)
  obtain ⟨hfr, hIt⟩ := ht
  have hst : t.m_stack = s.m_stack := by rw [hfr]
  rw [runs_bind, runs_transfersValue _ (by rw [hst]; omega)]
  dsimp only
  rw [runs_bind, runs_fromTop (by omega) (by rw [hst]; omega), runs_bind, runs_fromTop (by omega) (by rw [hst]; omega),
    runs_bind, runs_fromTop (by omega) (by rw [hst]; omega), runs_bind, runs_fromTop (by omega) (by rw [hst]; omega),
    runs_pure, hst]
  refine ⟨hfr, hIt, ?_, ?_⟩
  · rcases hi with rfl | rfl | rfl <;>
      simp only [minGas, ne_eq, reduceCtorEq, not_false_eq_true, true_and, decide_eq_true_eq, Nat.sub_self] <;>
      split <;> omega
  · rcases hi with rfl | rfl | rfl <;>
      simp only [ranges, List.mem_cons, List.not_mem_nil, or_false, reduceCtorEq, if_false, if_true, Nat.reduceAdd,
        Nat.reduceSub] <;>
      rintro r (rfl | rfl) hr
    · exact le_trans (le_memNeed hr) (Nat.le_max_right _ _)
    · exact le_trans (le_memNeed hr) (Nat.le_max_left _ _)
    · exact le_trans (le_memNeed hr) (Nat.le_max_right _ _)
    · exact le_trans (le_memNeed hr) (Nat.le_max_left _ _)
    · exact le_trans (le_memNeed hr) (Nat.le_max_right _ _)
    · exact le_trans (le_memNeed hr) (Nat.le_max_left _ _)

/-- Every price is at least `minGas`, and every memory is sized for the operands. -/
theorem priced_costOf (C : Contract F I X G limit) {inst : Instruction} {tier : Fin 8}
    (ht : (instructionInfo inst).gasPriceTier.index = some tier) {s : Frame σ} (hI : I s.ext)
    (h : (instructionInfo inst).args ≤ s.m_stack.length) :
    Runs (costOf F inst (F.evmSchedule.tierStepGas tier).toNat) s (Priced F I inst s) (fun e t => Kept I e t.ext ∧ t.io_gas = s.io_gas ∧ X e) := by
  have hone : ∀ {off size : U256} {n : Nat}, (size ≠ 0 → off.toNat + size.toNat ≤ n) →
      ∀ r ∈ [(off, size)], r.2 ≠ 0 → r.1.toNat + r.2.toNat ≤ n := by
    intro off size n hn r hr
    rw [List.mem_singleton] at hr
    subst hr
    exact hn
  have hlit : ∀ {x size : U256} {n : Nat}, n = size.toNat → x.toNat + size.toNat ≤ x.toNat + n := by
    intro x size n hn
    omega
  have hnone : ∀ {n : Nat}, ∀ r ∈ ([] : List (U256 × U256)), r.2 ≠ 0 → r.1.toNat + r.2.toNat ≤ n :=
    fun r hr => absurd hr List.not_mem_nil
  cases inst with
  | SSTORE => exact priced_sstore C hI h _
  | CALL => exact priced_costOfCall C (.inl rfl) hI h
  | CALLCODE => exact priced_costOfCall C (.inr (.inl rfl)) hI h
  | DELEGATECALL => exact priced_costOfCall C (.inr (.inr rfl)) hI h
  | MSTORE | MLOAD | MSTORE8 =>
    simp only [instructionInfo] at h
    rw [costOf, runs_bind, runs_get]
    dsimp only
    rw [back, runs_bind, runs_fromTop (by omega) (by omega), runs_pure]
    exact ⟨rfl, hI, by cases ht; exact Nat.le_refl _, hone fun _ => hlit (by decide)⟩
  | RETURN =>
    simp only [instructionInfo] at h
    rw [costOf, runs_bind, runs_get]
    dsimp only
    rw [back, runs_bind, runs_fromTop (by omega) (by omega), runs_bind, runs_fromTop (by omega) (by omega), runs_pure]
    exact ⟨rfl, hI, by cases ht; exact Nat.le_refl _, hone le_memNeed⟩
  | SHA3 =>
    simp only [instructionInfo] at h
    rw [costOf, runs_bind, runs_get]
    dsimp only
    rw [back, runs_bind, runs_fromTop (by omega) (by omega), runs_bind, runs_fromTop (by omega) (by omega), runs_bind,
      runs_fromTop (by omega) (by omega), runs_pure]
    exact ⟨rfl, hI, Nat.le_add_right _ _, hone le_memNeed⟩
  | CALLDATACOPY | CODECOPY | EXTCODECOPY =>
    simp only [instructionInfo] at h
    rw [costOf, runs_bind, runs_get]
    dsimp only [back]
    rw [runs_bind, runs_fromTop (by omega) (by omega), runs_bind, runs_fromTop (by omega) (by omega), runs_bind,
      runs_fromTop (by omega) (by omega), runs_pure]
    exact ⟨rfl, hI, by cases ht; exact Nat.le_refl _, hone le_memNeed⟩
  | LOG n =>
    simp only [instructionInfo] at h
    rw [costOf, runs_bind, runs_get]
    dsimp only
    rw [runs_bind, runs_fromTop (by omega) (by omega), runs_bind, runs_fromTop (by omega) (by omega), runs_bind,
      runs_fromTop (by omega) (by omega), runs_pure]
    exact ⟨rfl, hI, Nat.le_add_right _ _, hone le_memNeed⟩
  | CREATE =>
    simp only [instructionInfo] at h
    rw [costOf, runs_bind, runs_get]
    dsimp only
    rw [runs_bind, runs_fromTop (by omega) (by omega), runs_bind, runs_fromTop (by omega) (by omega), runs_pure]
    exact ⟨rfl, hI, Nat.le_refl _, hone le_memNeed⟩
  | EXP =>
    simp only [instructionInfo] at h
    rw [costOf, runs_bind, runs_get]
    dsimp only
    rw [runs_bind, runs_fromTop (by omega) (by omega), runs_pure]
    exact ⟨rfl, hI, Nat.le_refl _, hnone⟩
  | INVALID b => cases ht
  | _ => exact ⟨rfl, hI, by cases ht; exact Nat.le_refl _, hnone⟩

/-- Memory is dearer the more there is of it. -/
theorem gasForMem_mono (sched : EVMSchedule) {m n : Nat} (h : m ≤ n) : gasForMem sched m ≤ gasForMem sched n := by
  have hs : m / 32 ≤ n / 32 := Nat.div_le_div_right h
  exact Nat.add_le_add (Nat.mul_le_mul_left _ hs) (Nat.div_le_div_right (Nat.mul_le_mul hs hs))

/-- What `checkRequirements` has made sure of when it returns. -/
structure Checked (F : ExtVMFace σ) (I : σ → Prop) (inst : Instruction) (s t : Frame σ) : Prop where
  valid : (instructionInfo inst).gasPriceTier ≠ .InvalidTier
  args : (instructionInfo inst).args ≤ s.m_stack.length
  room : s.m_stack.length - (instructionInfo inst).args + (instructionInfo inst).ret ≤ F.evmSchedule.stackLimit.toNat
  stack : t.m_stack = s.m_stack
  curPC : t.m_curPC = s.m_curPC
  jumpDests : t.m_jumpDests = s.m_jumpDests
  touched : t.touched = s.touched
  ext : I t.ext
  grows : ∃ k, t.m_temp = s.m_temp ++ List.replicate k 0
  words : 32 ∣ s.m_temp.length → 32 ∣ t.m_temp.length
  covers : ∀ r ∈ ranges inst s.m_stack, r.2 ≠ 0 → r.1.toNat + r.2.toNat ≤ t.m_temp.length
  gas : t.io_gas.toNat + minGas F.evmSchedule inst s.m_stack + gasForMem F.evmSchedule t.m_temp.length ≤
    s.io_gas.toNat + gasForMem F.evmSchedule s.m_temp.length

/-- The checks make memory no shorter. -/
theorem Checked.temp_le {inst : Instruction} {s t : Frame σ} (h : Checked F I inst s t) :
    s.m_temp.length ≤ t.m_temp.length := by
  obtain ⟨k, hk⟩ := h.grows
  rw [hk, List.length_append]
  omega

/-- Checking an instruction leaves no more gas than there was. -/
theorem Checked.gas_le {inst : Instruction} {s t : Frame σ} (h : Checked F I inst s t) :
    t.io_gas.toNat ≤ s.io_gas.toNat := by
  have h1 := h.gas
  have h2 := gasForMem_mono F.evmSchedule h.temp_le
  omega

/-- A subtraction that does not wrap. -/
theorem toNat_sub_ofNat {x : U256} {n : Nat} (h : n ≤ x.toNat) : (x - BitVec.ofNat 256 n).toNat = x.toNat - n := by
  have hx := x.isLt
  rw [BitVec.toNat_sub, BitVec.toNat_ofNat, Nat.mod_eq_of_lt (lt_of_le_of_lt h hx)]
  omega

/-- Charging leaves the memory as large as it was, or as large as was asked for, rounded up to words, and takes the price of
both off the gas. -/
theorem runs_charge (c : Cost) (s : Frame σ) :
    Runs (charge F c) s
      (fun _ t => ∃ gas k, t = { s with io_gas := gas, m_temp := s.m_temp ++ List.replicate k 0 } ∧
        c.newTempSize ≤ s.m_temp.length + k ∧ (32 ∣ s.m_temp.length → 32 ∣ s.m_temp.length + k) ∧
        gas.toNat + c.runGas + gasForMem F.evmSchedule (s.m_temp.length + k) ≤
          s.io_gas.toNat + gasForMem F.evmSchedule s.m_temp.length)
      (fun e t => t = s ∧ e = .vm .OutOfGas) := by
  rw [charge, runs_bind, runs_get]
  dsimp only
  rw [runs_ite]
  refine ⟨fun _ => ⟨rfl, rfl⟩, fun hgas => ?_⟩
  rw [runs_set]
  refine ⟨_, _, rfl, by omega, fun hd => ?_, ?_⟩
  · by_cases hgt : (c.newTempSize + 31) / 32 * 32 > s.m_temp.length
    · rw [Nat.add_sub_cancel' (Nat.le_of_lt hgt)]
      exact Nat.dvd_mul_left 32 _
    · rw [Nat.sub_eq_zero_of_le (by omega), Nat.add_zero]
      exact hd
  · rw [toNat_sub_ofNat (by omega)]
    by_cases hgt : (c.newTempSize + 31) / 32 * 32 > s.m_temp.length
    · have hm := gasForMem_mono F.evmSchedule (Nat.le_of_lt hgt)
      rw [if_pos hgt] at hgas ⊢
      rw [Nat.add_sub_cancel' (Nat.le_of_lt hgt)]
      omega
    · have hk : (c.newTempSize + 31) / 32 * 32 - s.m_temp.length = 0 := by omega
      rw [if_neg hgt] at hgas ⊢
      simp only [hk, Nat.add_zero] at hgas ⊢
      omega

/-- What `checkRequirements` does. -/
theorem runs_checkRequirements (C : Contract F I X G limit) (inst : Instruction) {s : Frame σ} (hI : I s.ext) :
    Runs (checkRequirements F inst) s (fun _ t => Checked F I inst s t) (fun e t => Kept I e t.ext ∧ t.io_gas = s.io_gas ∧ (X e ∨ ∃ v, e = .vm v)) := by
  rw [checkRequirements, runs_ite]
  refine ⟨fun _ => ⟨fun _ => hI, rfl, Or.inr ⟨_, rfl⟩⟩, fun _ => ?_⟩
  cases ht : (instructionInfo inst).gasPriceTier.index with
  | none => exact ⟨fun _ => hI, rfl, Or.inr ⟨_, rfl⟩⟩
  | some tier =>
    dsimp only
    rw [runs_bind, require, runs_bind, runs_get, runs_ite]
    refine ⟨fun _ => ⟨fun _ => hI, rfl, Or.inr ⟨_, rfl⟩⟩, fun hargs => ?_⟩
    rw [runs_ite]
    refine ⟨fun _ => ⟨fun _ => hI, rfl, Or.inr ⟨_, rfl⟩⟩, fun hroom => ?_⟩
    rw [runs_pure, runs_bind]
    refine (priced_costOf C ht hI (by omega)).mono (fun c u hu => ?_) (fun e u he => ⟨he.1, he.2.1, Or.inl he.2.2⟩)
    have hfr := hu.frame
    refine (runs_charge c u).mono ?_ ?_
    · rintro - t ⟨gas, k, rfl, hsize, hword, hgas⟩
      have htemp : u.m_temp = s.m_temp := by rw [hfr]
      have hg0 : u.io_gas = s.io_gas := by rw [hfr]
      rw [htemp] at hsize hword hgas
      rw [hg0] at hgas
      refine ⟨?_, by omega, by omega, ?_, ?_, ?_, ?_, hu.ext, ⟨k, ?_⟩, fun hd => ?_, fun r hr h0 => ?_, ?_⟩
      · intro hinv
        rw [hinv] at ht
        cases ht
      · show u.m_stack = s.m_stack
        rw [hfr]
      · show u.m_curPC = s.m_curPC
        rw [hfr]
      · show u.m_jumpDests = s.m_jumpDests
        rw [hfr]
      · show u.touched = s.touched
        rw [hfr]
      · rw [htemp]
      · simp only [List.length_append, List.length_replicate, htemp]
        exact hword hd
      · simp only [List.length_append, List.length_replicate, htemp]
        exact le_trans (hu.covers r hr h0) hsize
      · simp only [List.length_append, List.length_replicate, htemp]
        have := hu.gas
        omega
    · rintro e t ⟨rfl, rfl⟩
      exact ⟨fun _ => hu.ext, by rw [hfr], Or.inr ⟨_, rfl⟩⟩

end Charging

/-! ## Calls and creations -/

section Calls

variable {F : ExtVMFace σ} {I : σ → Prop} {X : Stop → Prop} {G : U256 → U256 → Prop} {limit : Nat}

/-- `CREATE` is run as its row says. -/
theorem ran_create (C : Contract F I X G limit) {s : Frame σ} (hI : I s.ext) (h : 3 ≤ s.m_stack.length)
    (hgas : s.io_gas.toNat < limit) :
    Runs (execCreate F) s (fun _ t => Ran F G I .CREATE s t) (Failed I X .CREATE s) := by
  rw [execCreate, runs_bind, runs_takeBack (by omega), runs_bind, runs_takeBack (by simp; omega), runs_bind,
    runs_takeBack (by simp; omega), runs_bind, runs_onExt]
  simp only [getD_drop, List.drop_drop, Nat.add_zero, Nat.reduceAdd]
  refine (C.balance _ _ hI).mono (fun b e he => ?_)
    (fun x e he => ⟨he.1, rfl, rfl, fun _ τ hτ => Or.inl hτ, Or.inl he.2⟩)
  rw [runs_ite]
  refine ⟨fun hc => ?_, fun _ => ?_⟩
  · rw [runs_bind]
    refine (runs_readTemp 32 (by omega) _ _ _).mono ?_ ?_
    · rintro init t ⟨r, ht, -⟩
      have hm := ht.mem .CREATE (s := s) rfl List.mem_cons_self (fun _ τ hτ => Or.inl hτ)
      have hfr := ht.frame
      subst hfr
      rw [runs_bind, runs_get, runs_bind, runs_onExt]
      refine (C.create _ _ _ _ he hgas hc.2).mono (fun a e' he' => ?_) (fun x e he => ⟨he.1, rfl, rfl, hm, Or.inl he.2⟩)
      rw [runs_bind, runs_modify, runs_pushBack]
      refine ⟨?_, rfl, Or.inr he'.2, rfl, he'.1, hm⟩
      simp only [List.length_cons, List.length_drop, instructionInfo]
      omega
    · rintro e t ⟨rfl, hext, hg, htemp, hnf⟩
      exact failed_of_touch List.mem_cons_self (by rw [hext]; exact he) hg htemp rfl hnf
  · rw [runs_pushBack]
    refine ⟨?_, rfl, Or.inl rfl, rfl, he, fun _ τ hτ => Or.inl hτ⟩
    simp only [List.length_cons, List.length_drop, instructionInfo]
    omega

/-- What a call takes off the stack are its arguments, and the ranges among them are the ranges of its operands. -/
theorem runs_popCallOperands {inst : Instruction} (hi : inst = .CALL ∨ inst = .CALLCODE ∨ inst = .DELEGATECALL)
    {s : Frame σ} (h : (instructionInfo inst).args ≤ s.m_stack.length) :
    Runs (popCallOperands F inst) s
      (fun p t => t = { s with m_stack := s.m_stack.drop (instructionInfo inst).args } ∧
        p.gas = callGasOf F inst s.m_stack ∧
        ranges inst s.m_stack = [(p.inOff, p.inSize), (p.outOff, p.outSize)])
      (fun _ _ => False) := by
  have hargs : 6 ≤ (instructionInfo inst).args := by rcases hi with rfl | rfl | rfl <;> simp [instructionInfo]
  rw [popCallOperands, back, runs_bind, runs_fromTop (by omega) (by omega), runs_bind, runs_transfersValue _ (by omega)]
  dsimp only
  rw [runs_bind, runs_popBack (by omega), runs_bind, runs_takeBack (by simp only [List.length_drop]; omega), runs_bind]
  have hgas : (if decide (inst ≠ .DELEGATECALL ∧ s.m_stack.getD 2 0 > 0) = true then
      s.m_stack.getD (1 - 1) 0 + F.evmSchedule.callStipend else s.m_stack.getD (1 - 1) 0) = callGasOf F inst s.m_stack := by
    simp only [callGasOf, decide_eq_true_eq, Nat.sub_self]
  rw [hgas]
  by_cases hd : inst = .DELEGATECALL
  · subst hd
    simp only [instructionInfo] at h
    rw [popCallValue, if_pos rfl, runs_pure, runs_bind, runs_takeBack (by simp only [List.length_drop]; omega), runs_bind,
      runs_takeBack (by simp only [List.length_drop]; omega), runs_bind,
      runs_takeBack (by simp only [List.length_drop]; omega), runs_bind,
      runs_takeBack (by simp only [List.length_drop]; omega), runs_pure]
    simp only [getD_drop, List.drop_drop, Nat.add_zero, Nat.reduceAdd, instructionInfo, ranges, and_self]
  · have h7 : (instructionInfo inst).args = 7 ∧ ranges inst s.m_stack =
        [(s.m_stack.getD 3 0, s.m_stack.getD 4 0), (s.m_stack.getD 5 0, s.m_stack.getD 6 0)] := by
      rcases hi with rfl | rfl | rfl
      · exact ⟨rfl, rfl⟩
      · exact ⟨rfl, rfl⟩
      · exact absurd rfl hd
    rw [h7.1] at h ⊢
    rw [h7.2, popCallValue, if_neg hd, runs_bind, runs_takeBack (by simp only [List.length_drop]; omega), runs_pure,
      runs_bind, runs_takeBack (by simp only [List.length_drop]; omega), runs_bind,
      runs_takeBack (by simp only [List.length_drop]; omega), runs_bind,
      runs_takeBack (by simp only [List.length_drop]; omega), runs_bind,
      runs_takeBack (by simp only [List.length_drop]; omega), runs_pure]
    simp only [getD_drop, List.drop_drop, Nat.add_zero, Nat.reduceAdd, and_self]

/-- A call is run as its row says. -/
theorem ran_call (C : Contract F I X G limit) {inst : Instruction}
    (hi : inst = .CALL ∨ inst = .CALLCODE ∨ inst = .DELEGATECALL) {s : Frame σ} (hI : I s.ext)
    (h : (instructionInfo inst).args ≤ s.m_stack.length) (hgas : (callGasOf F inst s.m_stack).toNat < limit) :
    Runs (execCall F inst) s (fun _ t => Ran F G I inst s t) (Failed I X inst s) := by
  have hret : (instructionInfo inst).ret = 1 := by rcases hi with rfl | rfl | rfl <;> rfl
  have hafter : ∀ (t : Frame σ) (g : U256), g = callGasOf F inst s.m_stack ∨ G (callGasOf F inst s.m_stack) g →
      t.io_gas = s.io_gas + g → GasAfter F G inst s t := by
    intro t g hg ht
    rcases hi with rfl | rfl | rfl <;> exact Or.inr ⟨g, hg, ht⟩
  rw [execCall, runs_bind]
  refine (runs_popCallOperands hi h).mono ?_ (fun _ _ hf => hf.elim)
  rintro p t ⟨rfl, hpg, hranges⟩
  have hin : (p.inOff, p.inSize) ∈ ranges inst s.m_stack := by rw [hranges]; exact List.mem_cons_self
  have hout : (p.outOff, p.outSize) ∈ ranges inst s.m_stack := by
    rw [hranges]
    exact List.mem_cons_of_mem _ List.mem_cons_self
  rw [runs_bind, runs_onExt]
  refine (C.balance _ _ hI).mono (fun b e he => ?_)
    (fun x e he => ⟨he.1, rfl, rfl, fun _ τ hτ => Or.inl hτ, Or.inl he.2⟩)
  rw [runs_ite]
  refine ⟨fun hc => ?_, fun _ => ?_⟩
  · rw [runs_bind]
    refine (runs_readTemp 32 (by omega) _ _ _).mono ?_ ?_
    · rintro data t ⟨r, ht, -⟩
      have hm := ht.mem inst (s := s) rfl hin (fun _ τ hτ => Or.inl hτ)
      have hfr := ht.frame
      subst hfr
      rw [runs_bind]
      refine (runs_touch 32 (by omega) _ _ _).mono ?_ ?_
      · intro q t ht
        have hm := ht.mem inst (s := s) rfl hout hm
        have hins : q.2 = 0 ∨ q.1 + q.2 ≤ s.m_temp.length := ht.inside
        have hfr := ht.frame
        subst hfr
        rw [runs_bind, runs_onExt]
        refine (C.call _ _ he (by rw [hpg]; exact hgas) hc.2).mono (fun a e' he' => ?_) (fun x e he => ⟨he.1, rfl, rfl, hm, Or.inl he.2⟩)
        rw [runs_bind, runs_writeTemp, runs_bind, runs_pushBack, runs_modify]
        refine ⟨?_, length_overwrite ?_, hafter _ a.gas (Or.inr (by rw [← hpg]; exact he'.2)) rfl, rfl, he'.1, hm⟩
        · simp only [List.length_cons, List.length_drop, hret]
          omega
        · rw [List.length_take]
          show min q.2 a.out.length = 0 ∨ q.1 + min q.2 a.out.length ≤ s.m_temp.length
          omega
      · rintro e t ⟨rfl, hext, hg, htemp, hnf⟩
        exact failed_of_touch hout (by rw [hext]; exact he) hg htemp rfl hnf
    · rintro e t ⟨rfl, hext, hg, htemp, hnf⟩
      exact failed_of_touch hin (by rw [hext]; exact he) hg htemp rfl hnf
  · rw [runs_bind, runs_pushBack, runs_modify]
    refine ⟨?_, rfl, hafter _ p.gas (Or.inl hpg) rfl, rfl, he, fun _ τ hτ => Or.inl hτ⟩
    simp only [List.length_cons, List.length_drop, hret]
    omega

/-! ## One turn of the loop -/

/-- The instructions that end a run. -/
def Halting (inst : Instruction) : Prop := inst = .RETURN ∨ inst = .SUICIDE ∨ inst = .STOP

/-- What an instruction that ends the run has done. -/
structure Halted (I : σ → Prop) (inst : Instruction) (s t : Frame σ) : Prop where
  halting : Halting inst
  temp : t.m_temp = s.m_temp
  gas : t.io_gas = s.io_gas
  ext : I t.ext
  touched : Fits inst s → ∀ τ ∈ t.touched, τ ∈ s.touched ∨ Touch.Exact s.m_temp.length τ

/-- What an instruction has done after it was checked: ended the run, or gone on to the next. -/
def After (F : ExtVMFace σ) (G : U256 → U256 → Prop) (I : σ → Prop) (inst : Instruction) (u : Frame σ)
    (r : Option Bytes) (t : Frame σ) : Prop :=
  match r with
  | some _ => Halted I inst u t
  | none => ¬ Halting inst ∧ Ran F G I inst u t

/-- The frame an instruction starts in, with nothing touched. -/
def fresh (s : Frame σ) : Frame σ := { s with touched := [] }

/-- A call or a creation gets less gas than `limit`. -/
def GasBelow (F : ExtVMFace σ) (limit : Nat) (inst : Instruction) (u : Frame σ) : Prop :=
  match inst with
  | .CREATE => u.io_gas.toNat < limit
  | .CALL | .CALLCODE | .DELEGATECALL => (callGasOf F inst u.m_stack).toNat < limit
  | _ => True

/-- `RETURN` ends with the bytes that it names. -/
theorem runs_return {s : Frame σ} (hI : I s.ext) (h : 2 ≤ s.m_stack.length) :
    Runs (do
        let b ← takeBack
        let n ← takeBack
        pure (some (← readTemp 32 b n))) s
      (After F G I .RETURN s) (Failed I X .RETURN s) := by
  rw [runs_bind, runs_takeBack (by omega), runs_bind, runs_takeBack (by simp only [List.length_drop]; omega), runs_bind]
  simp only [getD_drop, List.drop_drop, Nat.add_zero]
  refine (runs_readTemp 32 (by omega) _ _ _).mono ?_ ?_
  · rintro b t ⟨r, ht, -⟩
    have hm := ht.mem .RETURN (s := s) rfl List.mem_cons_self (fun _ τ hτ => Or.inl hτ)
    have hfr := ht.frame
    subst hfr
    exact ⟨.inl rfl, rfl, rfl, hI, hm⟩
  · rintro e t ⟨rfl, hext, hg, htemp, hnf⟩
    exact failed_of_touch List.mem_cons_self (by rw [hext]; exact hI) hg htemp rfl hnf

/-- How one turn of the loop ends when it returns: the instruction was checked, and did what its description says. -/
def TurnDone (F : ExtVMFace σ) (G : U256 → U256 → Prop) (I : σ → Prop) (inst : Instruction) (s : Frame σ)
    (r : Option Bytes) (t : Frame σ) : Prop :=
  ∃ u, Checked F I inst (fresh s) u ∧ After F G I inst u r t

/-- How one turn of the loop ends when it throws: as the externalities do, with an exception of the machine, or because the
memory does not hold the operands after they were checked. -/
def TurnFailed (F : ExtVMFace σ) (I : σ → Prop) (X : Stop → Prop) (inst : Instruction) (s : Frame σ) (e : Stop)
    (t : Frame σ) : Prop :=
  Kept I e t.ext ∧ t.io_gas.toNat ≤ s.io_gas.toNat ∧
    (X e ∨ (∃ v, e = .vm v) ∨ (e = .fault .temp ∧ ∃ u, Checked F I inst (fresh s) u ∧ ¬ Fits inst u))

/-- What fails after the checks fails the turn. -/
theorem Failed.turn {inst : Instruction} {s u t : Frame σ} {e : Stop} (h : Failed I X inst u e t)
    (hu : Checked F I inst (fresh s) u) : TurnFailed F I X inst s e t := by
  refine ⟨h.ext, by rw [h.gas]; exact hu.gas_le, ?_⟩
  rcases h.reason with hx | hx | ⟨rfl, hx⟩
  · exact Or.inl hx
  · exact Or.inr (Or.inl ⟨_, hx⟩)
  · exact Or.inr (Or.inr ⟨rfl, u, hu, hx⟩)

/-- Going on to the next instruction changes no more than the place. -/
theorem Ran.next {inst : Instruction} {u t : Frame σ} (ht : Ran F G I inst u t) (pc : Nat) :
    Ran F G I inst u { t with m_curPC := pc } := by
  have hgas : GasAfter F G inst u { t with m_curPC := pc } := by
    have := ht.gas
    cases inst <;> exact this
  exact ⟨ht.height, ht.temp, hgas, ht.jumpDests, ht.ext, ht.touched⟩

/-- What an instruction does once it is checked. -/
theorem runs_perform (C : Contract F I X G limit) {inst : Instruction} {s u : Frame σ} (hu : Checked F I inst s u)
    (hbelow : GasBelow F limit inst u) : Runs (perform F inst) u (After F G I inst u) (Failed I X inst u) := by
  have hlen : (instructionInfo inst).args ≤ u.m_stack.length := by rw [hu.stack]; exact hu.args
  have hspecial : ∀ m : M σ Unit, ¬ Halting inst → Runs m u (fun _ t => Ran F G I inst u t) (Failed I X inst u) →
      Runs (do m; modify fun s => { s with m_curPC := s.m_curPC + 1 }; pure none) u
        (After F G I inst u) (Failed I X inst u) := by
    intro m hh hm
    rw [runs_bind]
    exact hm.mono (fun _ t ht => ⟨hh, ht.next _⟩) (fun e t ht => ht)
  have hordinary : ¬ Halting inst → Ordinary inst →
      Runs (do let pc ← execOrdinaryOpcode F inst; modify fun s => { s with m_curPC := pc }; pure none) u
        (After F G I inst u) (Failed I X inst u) := by
    intro hh ho
    rw [runs_bind]
    exact (runs_execOrdinaryOpcode C ho hu.ext hlen).mono (fun pc t ht => ⟨hh, ht.next pc⟩) (fun e t ht => ht)
  cases inst with
  | CREATE => exact hspecial _ (by simp [Halting]) (ran_create C hu.ext hlen hbelow)
  | CALL => exact hspecial _ (by simp [Halting]) (ran_call C (.inl rfl) hu.ext hlen hbelow)
  | CALLCODE => exact hspecial _ (by simp [Halting]) (ran_call C (.inr (.inl rfl)) hu.ext hlen hbelow)
  | DELEGATECALL => exact hspecial _ (by simp [Halting]) (ran_call C (.inr (.inr rfl)) hu.ext hlen hbelow)
  | RETURN => exact runs_return hu.ext hlen
  | SUICIDE =>
    rw [perform, back, runs_bind, runs_fromTop (by omega) (by exact hlen), runs_bind, runs_onExt]
    refine (C.suicide _ _ hu.ext).mono (fun _ e he => ?_)
      (fun x e he => ⟨he.1, rfl, rfl, fun _ τ hτ => Or.inl hτ, Or.inl he.2⟩)
    exact ⟨.inr (.inl rfl), rfl, rfl, he, fun _ τ hτ => Or.inl hτ⟩
  | STOP => exact ⟨.inr (.inr rfl), rfl, rfl, hu.ext, fun _ τ hτ => Or.inl hτ⟩
  | INVALID b => exact absurd rfl hu.valid
  | _ => exact hordinary (by simp [Halting]) trivial

/-- One turn of the loop. -/
theorem runs_execInstruction (C : Contract F I X G limit) (inst : Instruction) {s : Frame σ} (hI : I s.ext)
    (hgas : ∀ u, Checked F I inst (fresh s) u → GasBelow F limit inst u) :
    Runs (execInstruction F inst) s (TurnDone F G I inst s) (TurnFailed F I X inst s) := by
  rw [execInstruction, runs_bind, runs_modify, runs_bind]
  refine (runs_checkRequirements C inst (s := fresh s) hI).mono (fun _ u hu => ?_)
    (fun e t he => ⟨he.1, by rw [he.2.1]; rfl, he.2.2.imp_right Or.inl⟩)
  exact (runs_perform C hu (hgas u hu)).mono (fun r t ht => ⟨u, hu, ht⟩) (fun e t ht => ht.turn hu)

/-! ## At the greatest depth -/

/-- At a depth of 1024 an instruction neither calls nor creates. -/
theorem execInstruction_deep (h : 1024 ≤ F.fields.depth) (create : U256 → U256 → Bytes → EStateM Stop σ (Address × U256))
    (call : CallParameters → EStateM Stop σ CallResult) (inst : Instruction) :
    execInstruction { F with create := create, call := call } inst = execInstruction F inst := by
  have hd : ¬ F.fields.depth < 1024 := by omega
  have hcreate : execCreate { F with create := create, call := call } = execCreate F := by
    unfold execCreate
    simp only [hd, and_false, if_false]
  have hcall : ∀ inst, execCall { F with create := create, call := call } inst = execCall F inst := by
    intro inst
    unfold execCall
    simp only [hd, and_false, if_false]
    rfl
  have hperform : perform { F with create := create, call := call } inst = perform F inst := by
    unfold perform
    cases inst with
    | CREATE => simp only [hcreate]
    | CALL | CALLCODE | DELEGATECALL => simp only [hcall]
    | _ => rfl
  unfold execInstruction
  rw [hperform]
  rfl

/-- At the greatest depth neither calls nor creations are asked for. -/
theorem loop_deep (h : 1024 ≤ F.fields.depth) (create : U256 → U256 → Bytes → EStateM Stop σ (Address × U256))
    (call : CallParameters → EStateM Stop σ CallResult) (turns : Nat) :
    loop { F with create := create, call := call } turns = loop F turns := by
  induction turns with
  | zero => rfl
  | succ n ih =>
    have hstep : step { F with create := create, call := call } = step F := by
      funext s
      exact congrFun (execInstruction_deep h create call _) s
    rw [loop, loop, hstep, ih]

end Calls

end VM

end Webthree
