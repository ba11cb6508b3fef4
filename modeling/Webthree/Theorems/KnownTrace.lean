import Webthree.Theorems.Executive
import Webthree.Lemmas.VmActs

/-!
# Known states and the machine

While the machine runs a code, the items that it runs are fed to a known state. There are values for the classes of expressions such
that, at every point of the run, the known state is right about the stack, the memory and the storage of the machine.
-/

namespace Webthree

open ExpressionClasses (Id M Reached Extends Below levels find)
open VM (Contract StorageLaws Leaves contents memoryOf Decodes)

/-! ## The storage of a contract -/

/-- What the state has at a place of the storage of an account. -/
def State.storageOf (my : Address) (s : State) (k : U256) : U256 :=
  match s.known my with
  | some a => (a.m_storageOverlay k).getD (s.m_storage a.m_storageRoot k)
  | none => 0

namespace State

theorem fill_storage (s : State) (x : Account) :
    (s.fill x).m_storageOverlay = x.m_storageOverlay ∧ (s.fill x).m_storageRoot = x.m_storageRoot := by
  rw [fill]
  split <;> exact ⟨rfl, rfl⟩

theorem storageOf_cached {my : Address} {s : State} {x : Account} (h : s.m_cache my = some x) (k : U256) :
    s.storageOf my k = (x.m_storageOverlay k).getD (s.m_storage x.m_storageRoot k) := by
  rw [storageOf, known, h]
  dsimp only
  rw [(s.fill_storage x).1, (s.fill_storage x).2]

theorem Looks.storageOf {s t : State} (h : s.Looks t) (my : Address) : t.storageOf my = s.storageOf my := by
  funext k
  rw [State.storageOf, State.storageOf, h.known, h.storage]

/-- Putting a word into the storage of an account in the cache. -/
theorem storageOf_insert {my : Address} {s : State} {x : Account} (h : s.m_cache my = some x) (k v : U256) :
    ({ s with m_cache := s.m_cache.insert my (x.setStorage k v) } : State).storageOf my = Function.update (s.storageOf my) k v := by
  funext j
  rw [storageOf_cached (cached_insert s my (x.setStorage k v)), Account.setStorage]
  dsimp only
  by_cases hj : j = k
  · rw [if_pos hj, hj, Function.update_self]
    rfl
  · rw [if_neg hj, Function.update_of_ne hj, storageOf_cached h]

theorem runs_storage_value {my : Address} {s : State} (h : (s.m_cache my).isSome) (k : U256) :
    Runs (storage my k) s (fun v t => v = s.storageOf my k ∧ t.storageOf my = s.storageOf my) fun _ _ => False := by
  rw [storage, runs_bind]
  refine (runs_find my s).mono (fun r t ht => ?_) fun _ _ hf => hf
  obtain ⟨hlooks, hcache, _⟩ := ht
  have hsame := hlooks.storageOf my
  cases r with
  | none =>
    have hcached := hlooks.cached my h
    rw [hcache] at hcached
    cases hcached
  | some x =>
    have hvalue := storageOf_cached hcache k
    dsimp only
    cases hv : x.m_storageOverlay k with
    | some v =>
      rw [hv] at hvalue
      exact ⟨(congrFun hsame k).symm.trans hvalue |>.symm, hsame⟩
    | none =>
      rw [hv, Option.getD_none] at hvalue
      dsimp only
      rw [runs_bind, runs_get, runs_bind, runs_cache, runs_pure]
      refine ⟨hvalue.symm.trans (congrFun hsame k), ?_⟩
      rw [storageOf_insert hcache, ← hvalue, Function.update_eq_self, hsame]

theorem runs_setStorage_value {my : Address} {s : State} (h : (s.m_cache my).isSome) (k v : U256) :
    Runs (setStorage my k v) s (fun _ t => t.storageOf my = Function.update (s.storageOf my) k v) fun _ _ => False := by
  obtain ⟨x, hx⟩ := Option.isSome_iff_exists.mp h
  rw [setStorage, runs_bind, cached, runs_bind, runs_get, runs_pure, runs_cache, hx]
  exact storageOf_insert hx k v

end State

namespace ExtVM

/-- The externalities of a contract have its storage. -/
theorem storageLaws (E : SealEngine) (sha3 : Bytes → H256) (fields : ExtFields) (go : Executive.M Unit) {base : State}
    (hmy : (base.m_cache fields.myAddress).isSome) :
    StorageLaws (face E sha3 fields go) (Within base) fun x => x.m_s.storageOf fields.myAddress where
  store k _ hx := (runs_onState _ _ _ _).mpr
    ((State.runs_storage_value (hx.extends'.cached _ hmy) k).mono (fun _ _ h => h.1) fun _ _ hf => hf.elim)
  setStore k v _ hx := (runs_onState _ _ _ _).mpr
    ((State.runs_setStorage_value (hx.extends'.cached _ hmy) k v).mono (fun _ _ h => h) fun _ _ hf => hf.elim)
  store_leaves k _ hx := (runs_onState _ _ _ _).mpr
    ((State.runs_storage_value (hx.extends'.cached _ hmy) k).mono (fun _ _ h => h.2) fun _ _ hf => hf.elim)
  balance a _ _ := (runs_onState _ _ _ _).mpr
    ((State.runs_balance a _).mono (fun _ _ h => h.1.storageOf _) fun _ _ hf => hf.elim)
  codeAt a _ _ := (runs_onState _ _ _ _).mpr ((State.runs_code a _).mono (fun _ _ h => h.storageOf _) fun _ _ hf => hf.elim)
  «exists» a _ _ := (runs_onState _ _ _ _).mpr
    ((State.runs_addressInUse a _).mono (fun _ _ h => h.storageOf _) fun _ _ hf => hf.elim)
  log _ _ _ _ := rfl
  addRefunds _ _ _ := rfl

end ExtVM

namespace KnownState

open ExpressionClasses

variable {τ : Type}

/-! ## Runs of the machine -/

/-- The items that the machine runs are fed to a known state, from the frame `f₀` on. The last point of the run is at the head. -/
inductive Alongside (F : ExtVMFace τ) (pushed : AssemblyItem → U256) (n : Nat) (f₀ : Frame τ) :
    List (ExpressionClasses × KnownState × Frame τ) → Prop
  | start {s : ExpressionClasses} : Reached s → Alongside F pushed n f₀ [(s, {}, f₀)]
  | step {s s' : ExpressionClasses} {σ σ' : KnownState} {f f' : Frame τ} {l : List (ExpressionClasses × KnownState × Frame τ)}
      {item : AssemblyItem} {op : Option StoreOperation} : Alongside F pushed n f₀ ((s, σ, f) :: l) →
      Decodes F.fields pushed item f.m_curPC → Whole item f.m_stack → VM.step F f = .ok none f' →
      feedItem (fun b => (F.sha3 b).toU256) n item σ s = .ok (op, σ') s' → Alongside F pushed n f₀ ((s', σ', f') :: (s, σ, f) :: l)
  | look {s s' : ExpressionClasses} {σ σ' : KnownState} {f : Frame τ} {l : List (ExpressionClasses × KnownState × Frame τ)}
      {stackHeight : Int} {c : Id} : Alongside F pushed n f₀ ((s, σ, f) :: l) → stackHeight ≤ σ.m_stackHeight →
      stackElement n σ stackHeight s = .ok (c, σ') s' → Alongside F pushed n f₀ ((s', σ', f) :: (s, σ, f) :: l)
  | others {s s' : ExpressionClasses} {σ : KnownState} {f : Frame τ} {l : List (ExpressionClasses × KnownState × Frame τ)} :
      Alongside F pushed n f₀ ((s, σ, f) :: l) → Reached s' → Extends s s' → Alongside F pushed n f₀ ((s', σ, f) :: (s, σ, f) :: l)

/-- The known state is right about the machine: an element of the stack that has a class has its value, and what is known of the storage
and of the memory is there. -/
structure Right (storage : τ → U256 → U256) (V : Id → U256) (σ : KnownState) (f : Frame τ) : Prop where
  stack : ∀ (k : Nat) c x, σ.m_stackElements.find (σ.m_stackHeight - k) = some c → f.m_stack[k]? = some x → V c = x
  storage : ∀ e ∈ σ.m_storageContent, storage f.ext (V e.1) = V e.2
  memory : ∀ e ∈ σ.m_memoryContent, word (memoryOf f.m_temp) (V e.1) = V e.2

theorem Agrees.right {sha3 : Bytes → U256} {ι : Interpretation} {V : Id → U256} {σ : KnownState} {storage : τ → U256 → U256} {f : Frame τ}
    (h : Agrees sha3 ι V σ (contents storage f)) : Right storage V σ f where
  stack k c x hc hx := by
    have hvalue := h.stack k x hx
    rwa [valueAt, hc] at hvalue
  storage e he := by
    rw [← h.knows.storage e he, h.storage]
    rfl
  memory e he := by
    rw [← h.knows.memory e he, h.memory]
    rfl

section

variable {F : ExtVMFace τ} {I : τ → Prop} {X : Stop → Prop} {G : U256 → U256 → Prop} {storage : τ → U256 → U256}
  {pushed : AssemblyItem → U256} {n : Nat} {f₀ : Frame τ} (hF : StorageLaws F I storage) (C : Contract F I X G (2 ^ 256)) (hI : I f₀.ext)

include hF C hI

theorem Alongside.ext {p : ExpressionClasses × KnownState × Frame τ} {l : List (ExpressionClasses × KnownState × Frame τ)}
    (h : Alongside F pushed n f₀ (p :: l)) : I p.2.2.ext := by
  generalize hl : p :: l = points at h
  induction h generalizing p l with
  | start hs =>
    cases hl
    exact hI
  | @step s s' σ σ' f f' l item op _ _ _ hstep _ ih =>
    cases hl
    have hext : I f.ext := ih (p := (s, σ, f)) rfl
    obtain ⟨u, _, _, _, hran⟩ := VM.turn_cases hF C hext hstep
    exact hran.ext
  | @look s s' σ σ' f l _ _ _ _ _ ih =>
    cases hl
    exact ih (p := (s, σ, f)) rfl
  | @others s s' σ f l _ _ _ ih =>
    cases hl
    exact ih (p := (s, σ, f)) rfl

/-- The contents of the machine are those of a trace, as long as 32 bits address its memory. -/
theorem Alongside.traced {p : ExpressionClasses × KnownState × Frame τ} {l : List (ExpressionClasses × KnownState × Frame τ)}
    (h : Alongside F pushed n f₀ (p :: l)) (hmemory : p.2.2.m_temp.length < 2 ^ 32) :
    Traced (fun b => (F.sha3 b).toU256) n (fun _ _ _ _ => True) F.fields pushed (contents storage f₀)
      ((p :: l).map fun q => ⟨q.1, q.2.1, contents storage q.2.2⟩) := by
  generalize hl : p :: l = points at h
  induction h generalizing p l with
  | start hs =>
    cases hl
    exact .start hs
  | @step s s' σ σ' f f' l item op h hd hwhole hstep hfeed ih =>
    cases hl
    have hext := h.ext hF C hI
    have htraced := ih (p := (s, σ, f)) (lt_of_le_of_lt (VM.temp_le_of_turn hF C hext hstep) hmemory) rfl
    exact .feed htraced hfeed (VM.itemActs_of_step hF C hext hd hstep hmemory) hwhole trivial
  | @look s s' σ σ' f l _ _ _ hle hlook ih =>
    cases hl
    exact .look (ih (p := (s, σ, f)) hmemory rfl) hle hlook
  | @others s s' σ f l _ hs' he ih =>
    cases hl
    exact .others (ih (p := (s, σ, f)) hmemory rfl) hs' he

/-- There are values for the classes under which the known states are right at every point of the run. -/
theorem Alongside.right (hn : levels ≤ n) (hheight : f₀.m_stack.length ≤ 2 ^ 256) {s : ExpressionClasses} {σ : KnownState} {f : Frame τ}
    {l : List (ExpressionClasses × KnownState × Frame τ)} (h : Alongside F pushed n f₀ ((s, σ, f) :: l)) (hmemory : f.m_temp.length < 2 ^ 32) :
    ∃ V, Respects V s.m_representatives ∧ ∀ p ∈ (s, σ, f) :: l, Right storage V p.2.1 p.2.2 := by
  have htraced := h.traced hF C hI hmemory
  obtain ⟨ι, V, hV, _, _, hagrees⟩ := htraced.exists_agrees hn hheight (htraced.sound hn).reached (Extends.refl s)
  refine ⟨V, hV.respects (Extends.refl s), fun p hp => ?_⟩
  have hmem : (⟨p.1, p.2.1, contents storage p.2.2⟩ : Point) ∈
      ((s, σ, f) :: l).map fun q => (⟨q.1, q.2.1, contents storage q.2.2⟩ : Point) := List.mem_map.mpr ⟨p, hp, rfl⟩
  exact Agrees.right (hagrees _ hmem)

end

/-- While the machine runs a contract from its start, what the known states say of the stack, of the storage of the contract and of the
memory is true, for one choice of values for the classes that respects constants and arithmetic. -/
theorem right_about_machine (E : SealEngine) (sha3 : Bytes → H256) {fields : ExtFields} (turns calls : Nat) {base : State}
    (hmy : (base.m_cache fields.myAddress).isSome) (gas : U256) (pushed : AssemblyItem → U256) {n : Nat} (hn : levels ≤ n)
    {s : ExpressionClasses} {σ : KnownState} {f : Frame ExtVM} {l : List (ExpressionClasses × KnownState × Frame ExtVM)}
    (hrun : Alongside (ExtVM.face E sha3 fields (Executive.go E turns calls)) pushed n
      (VM.initial (ExtVM.face E sha3 fields (Executive.go E turns calls)) gas ⟨base, {}⟩) ((s, σ, f) :: l))
    (hmemory : f.m_temp.length < 2 ^ 32) :
    ∃ V, Respects V s.m_representatives ∧ ∀ p ∈ (s, σ, f) :: l, Right (fun x => x.m_s.storageOf fields.myAddress) V p.2.1 p.2.2 :=
  hrun.right (ExtVM.storageLaws E sha3 fields _ hmy) (ExtVM.contract_any E sha3 turns calls hmy) (ExtVM.within_refl base) hn
    (Nat.zero_le _) hmemory

/-! ## Running items -/

/-- Whether the code has the item at its place, for an operation or a number to push. -/
def decodes (f : ExtFields) (item : AssemblyItem) (pc : Nat) : Bool :=
  match item.type, Instruction.ofByte (f.getCode pc) with
  | .Operation, .PUSH _ => false
  | .Operation, inst => inst = item.instruction
  | .Push, .PUSH k => VM.pushValue f (pc + 1) (k + 1) 0 = item.data
  | _, _ => false

theorem decodes_of_decodes {f : ExtFields} {item : AssemblyItem} {pc : Nat} (pushed : AssemblyItem → U256)
    (h : decodes f item pc = true) : Decodes f pushed item pc := by
  unfold decodes at h
  unfold Decodes
  split at h
  case h_1 => cases h
  case h_2 htype hnot =>
    rw [htype]
    have heq : Instruction.ofByte (f.getCode pc) = item.instruction := of_decide_eq_true h
    exact ⟨heq, fun k hk => hnot k (heq.trans hk)⟩
  case h_3 k htype hbyte =>
    rw [htype]
    exact ⟨k, hbyte, of_decide_eq_true h⟩
  case h_4 => cases h

instance (item : AssemblyItem) (stack : List U256) : Decidable (Whole item stack) := by
  unfold Whole
  infer_instance

/-- Items that the machine runs and that are fed one after the other. -/
def runItems (F : ExtVMFace τ) (n : Nat) : List AssemblyItem → ExpressionClasses × KnownState × Frame τ →
    Option (ExpressionClasses × KnownState × Frame τ)
  | [], x => some x
  | item :: items, (s, σ, f) =>
    if decodes F.fields item f.m_curPC ∧ Whole item f.m_stack then
      match VM.step F f, feedItem (fun b => (F.sha3 b).toU256) n item σ s with
      | .ok none f', .ok (_, σ') s' => runItems F n items (s', σ', f')
      | _, _ => none
    else none

theorem Alongside.runItems {F : ExtVMFace τ} (pushed : AssemblyItem → U256) {n : Nat} {f₀ : Frame τ} {items : List AssemblyItem}
    {x y : ExpressionClasses × KnownState × Frame τ} {l : List (ExpressionClasses × KnownState × Frame τ)}
    (h : Alongside F pushed n f₀ (x :: l)) (hrun : runItems F n items x = some y) : ∃ l', Alongside F pushed n f₀ (y :: l') := by
  induction items generalizing x l with
  | nil =>
    cases hrun
    exact ⟨l, h⟩
  | cons item items ih =>
    obtain ⟨s, σ, f⟩ := x
    rw [KnownState.runItems] at hrun
    split at hrun
    · rename_i hitem
      split at hrun
      · rename_i hstep hfeed
        exact ih (h.step (decodes_of_decodes pushed hitem.1) hitem.2 hstep hfeed) hrun
      · cases hrun
    · cases hrun

end KnownState

namespace Sample

/-- A call whose code stores a sum and loads it again: `PUSH1 5 PUSH1 3 ADD PUSH1 0 SSTORE PUSH1 0 SLOAD`. -/
def storing : ExtFields := { fields with code := [0x60, 5, 0x60, 3, 0x01, 0x60, 0, 0x55, 0x60, 0, 0x54] }

/-- The items of the code. -/
def storingItems : List AssemblyItem :=
  [.push 5, .push 3, .ofInstruction .ADD, .push 0, .ofInstruction .SSTORE, .push 0, .ofInstruction .SLOAD]

/-- What a call of the code provides to the machine. -/
def storingFace : ExtVMFace ExtVM := ExtVM.face engine hash storing (Executive.go engine 5 1)

end Sample

namespace KnownState

/-- The known state says that the word that was loaded is 8, and it is. -/
theorem right_about_machine_sample : ∃ s σ f l c, Alongside Sample.storingFace (fun _ => 0) levels
      (VM.initial Sample.storingFace 100000 ⟨Sample.state, {}⟩) ((s, σ, f) :: l) ∧
    σ.m_stackElements.find σ.m_stackHeight = some c ∧ f.m_stack[0]? = some 8 ∧
    ∃ V, Respects V s.m_representatives ∧ V c = 8 := by
  have hcompute : ((runItems Sample.storingFace levels Sample.storingItems
      (⟨[], []⟩, {}, VM.initial Sample.storingFace 100000 ⟨Sample.state, {}⟩)).map fun x =>
        (decide (x.2.2.m_temp.length < 2 ^ 32), x.2.1.m_stackElements.find x.2.1.m_stackHeight, x.2.2.m_stack[0]?)) =
      some (true, some 2, some 8) := by decide +kernel
  obtain ⟨⟨s, σ, f⟩, hrun, hx⟩ := Option.map_eq_some_iff.mp hcompute
  obtain ⟨hmemory, hc, htop⟩ : decide (f.m_temp.length < 2 ^ 32) = true ∧ σ.m_stackElements.find σ.m_stackHeight = some 2 ∧
      f.m_stack[0]? = some 8 := by simpa using hx
  have hstart : Alongside Sample.storingFace (fun _ => 0) levels (VM.initial Sample.storingFace 100000 ⟨Sample.state, {}⟩) _ :=
    .start Reached.start
  obtain ⟨l, halong⟩ := hstart.runItems (fun _ => 0) hrun
  have hmy : (Sample.state.m_cache Sample.storing.myAddress).isSome := by decide
  obtain ⟨V, hV, hright⟩ := right_about_machine Sample.engine Sample.hash 5 1 hmy 100000 (fun _ => 0) (le_refl levels) halong
    (of_decide_eq_true hmemory)
  exact ⟨s, σ, f, l, 2, halong, hc, htop, V, hV, (hright _ List.mem_cons_self).stack 0 2 8 (by simpa using hc) htop⟩

end KnownState

end Webthree
