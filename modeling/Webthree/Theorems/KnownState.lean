import Webthree.Lemmas.KnownSteps
import Webthree.Lemmas.VmRun

/-!
# Hashes of known states

In every run in which a hash is only taken over for as many bytes, two SHA3 operations are given the same class only if they hash the
same bytes. The list of the words under which a hash is kept does not say how many bytes of them were hashed.
-/

namespace Webthree

open ExpressionClasses (Id Reached Extends Below levels)

namespace KnownState

open ExpressionClasses

variable {sha3 : Bytes → U256} {n : Nat} {s : ExpressionClasses} {σ : KnownState} {h : History}

theorem known_start (hs : Reached s) : Known sha3 s {} .start where
  reached := hs
  within := ⟨fun _ he => absurd he List.not_mem_nil, fun _ he => absurd he List.not_mem_nil, fun _ he => absurd he List.not_mem_nil,
    fun _ he => absurd he List.not_mem_nil⟩
  current := ⟨.changes, rfl⟩
  bounded := fun x hx => List.mem_singleton.mp hx ▸ le_refl 1
  effects := fun x hx => List.mem_singleton.mp hx ▸ trivial
  memory := fun _ _ _ he => absurd he List.not_mem_nil
  same := by
    intro μ _ t t' x x' hx hx' _
    have hzero : ∀ (t : Nat) (x : Moment), History.start.moments[t]? = some x → t = 0 := by
      intro t x hx
      exact Nat.lt_one_iff.mp (List.getElem?_eq_some_iff.mp hx).1
    rw [hzero t x hx, hzero t' x' hx']
  recorded := fun _ ho => absurd ho List.not_mem_nil

/-- What the other state knows too stays known when the machine comes from there. -/
theorem Known.joined {h' : History} {s' : ExpressionClasses} {other σ' : KnownState} (hk' : Known sha3 s other h') (hs' : Reached s')
    (he : Extends s s') (hwithin : Within σ' s') (hmemory : ∀ e ∈ σ'.m_memoryContent, e ∈ other.m_memoryContent)
    (hle : other.m_sequenceNumber ≤ σ'.m_sequenceNumber) : Known sha3 s' σ' (h'.next σ'.m_sequenceNumber .keeps []) := by
  have hother := hk'.extends hs' he
  refine hother.next hwithin hle trivial (fun μ hμ hholds e hm => ?_) (fun _ μ _ hholds => hholds) fun o ho =>
    absurd ho List.not_mem_nil
  rw [hholds]
  exact hother.memory μ hμ e (hmemory e hm)

/-- The invariant holds in every run. -/
theorem Run.known (hn : levels ≤ n) (hrun : Run sha3 n true s σ h) : Known sha3 s σ h := by
  induction hrun with
  | start hs => exact known_start hs
  | others _ hs' he ih => exact ih.extends hs' he
  | feedItem _ hobserved hfeed hsame ih => exact feedItem_known hn ih hobserved hfeed (hsame rfl)
  | resetStorage _ ih => exact ih.still ⟨⟨fun _ he => he, rfl, le_refl _⟩, rfl⟩ ih.within.resetStorage
  | resetMemory _ ih => exact ih.still ⟨⟨fun _ he => absurd he List.not_mem_nil, rfl, le_refl _⟩, rfl⟩ ih.within.resetMemory
  | resetStack _ ih => exact ih.still ⟨⟨fun _ he => he, rfl, le_refl _⟩, rfl⟩ ih.within.resetStack
  | stackElement _ helement ih =>
    obtain ⟨hs', he, _, hwithin, hstill⟩ := (grows_stackElement hn ih.reached ih.within _).of_ok helement
    exact (ih.extends hs' he).still hstill hwithin
  | clearTagUnions _ ih => exact ih.still ⟨⟨fun _ he => he, rfl, le_refl _⟩, rfl⟩ ih.within.clearTagUnions
  | reduce _ _ hreduce ih _ =>
    obtain ⟨hs', he, hwithin, hcalm, _⟩ := (grows_reduce ih.reached ih.within _ _).of_ok hreduce
    exact (ih.extends hs' he).calm hcalm hwithin
  | joined _ _ hreduce hjoins ih ih' =>
    obtain ⟨hs', he, hwithin, _, hmemory⟩ := (grows_reduce ih.reached ih.within _ _).of_ok hreduce
    exact ih'.joined hs' he hwithin hmemory (hjoins rfl)

/-- Hashes that are recorded have the same class only if they hash the same bytes. -/
theorem Known.distinguishes (hk : Known sha3 s σ h) (hsha3 : Collisionless sha3 s h) : Distinguishes sha3 s h := by
  intro o ho o' ho' hresult μ hμ
  have hrec := hk.recorded o ho
  have hrec' := hk.recorded o' ho'
  rcases hrec.founded with ⟨start, length, k, hclass, t, x, hx, hseq, _, _, hbytes⟩ | ⟨d, hd, hclass⟩
  · rcases hrec'.founded with ⟨start', length', k', hclass', t', x', hx', hseq', _, _, hbytes'⟩ | ⟨d', _, hclass'⟩
    · -- the same operands, and the same memory
      rw [hresult, hclass'] at hclass
      cases hclass
      rw [hbytes μ hμ, hbytes' μ hμ, hk.same μ hμ t t' x x' hx hx' (hseq.trans hseq'.symm)]
    · rw [hresult, hclass'] at hclass
      cases hclass
  · rcases hrec'.founded with ⟨start', length', k', hclass', _⟩ | ⟨d', hd', hclass'⟩
    · rw [hresult, hclass'] at hclass
      cases hclass
    · -- the hashes of known data
      rw [hresult, hclass'] at hclass
      have hhash : sha3 d = sha3 d' := by
        have hitem := congrArg (Option.map fun e => e.item.data) hclass
        exact (Option.some.inj hitem).symm
      rw [hrec.hashed_eq hk.reached hd hμ, hrec'.hashed_eq hk.reached hd' hμ, hsha3 o ho o' ho' d hd d' hd' hhash]

/-- The memory changes as the histories say when the machine has the values of the classes on its stack, and what it hashes are the bytes
of the hash. -/
theorem machine_follows {τ : Type} (F : ExtVMFace τ) (μ : Machine) (s : ExpressionClasses) {frame : Frame τ} {a b : Id} {rest : List U256}
    (hlength : frame.m_temp.length < 2 ^ 32) (hstack : frame.m_stack = μ.value s a :: μ.value s b :: rest) :
    ((μ.value s a).toNat + 32 ≤ frame.m_temp.length → ∃ frame', VM.execOrdinaryOpcode F .MSTORE frame = .ok (frame.m_curPC + 1) frame' ∧
      Effect.Holds (μ.value s) (VM.memoryOf frame.m_temp) (VM.memoryOf frame'.m_temp) (.stores a b)) ∧
    ((μ.value s a).toNat + 32 ≤ frame.m_temp.length → ∃ frame', VM.execOrdinaryOpcode F .MLOAD frame = .ok (frame.m_curPC + 1) frame' ∧
      Effect.Holds (μ.value s) (VM.memoryOf frame.m_temp) (VM.memoryOf frame'.m_temp) .keeps ∧
      frame'.m_stack.head? = some (word (VM.memoryOf frame.m_temp) (μ.value s a))) ∧
    ((μ.value s a).toNat + (μ.value s b).toNat ≤ frame.m_temp.length → ∀ o : Hashing, o.start = a → o.length = b →
      VM.memoryOf frame.m_temp = μ.memory o.moment → ∃ frame', VM.execOrdinaryOpcode F .SHA3 frame = .ok (frame.m_curPC + 1) frame' ∧
        Effect.Holds (μ.value s) (VM.memoryOf frame.m_temp) (VM.memoryOf frame'.m_temp) .keeps ∧
        frame'.m_stack = (F.sha3 (μ.hashed s o)).toU256 :: rest) := by
  refine ⟨fun hin => ?_, fun hin => ?_, fun hin o ha hb hmemory => ?_⟩
  · obtain ⟨frame', hexec, _, hstore⟩ := VM.exec_mstore F hstack hlength hin
    exact ⟨frame', hexec, hstore⟩
  · obtain ⟨frame', hexec, hpush, htemp⟩ := VM.exec_mload F hstack hlength hin
    refine ⟨frame', hexec, congrArg VM.memoryOf htemp, ?_⟩
    rw [hpush, List.head?_cons]
  · obtain ⟨frame', hexec, hpush, htemp⟩ := VM.exec_sha3 F hstack hlength hin
    refine ⟨frame', hexec, congrArg VM.memoryOf htemp, ?_⟩
    rw [hpush, Machine.hashed, ha, hb, hmemory]

/-- In every run whose steps meet the condition, SHA3 operations are given the same class only if they hash the same bytes, as many of
them, in every consistent machine. -/
theorem run_distinguishes (hn : levels ≤ n) (hrun : Run sha3 n true s σ h) (hsha3 : Collisionless sha3 s h) :
    Distinguishes sha3 s h := (hrun.known hn).distinguishes hsha3

/-! ## Runs on items -/

instance (σ : KnownState) (s : ExpressionClasses) (h : History) (o : Hashing) : Decidable (SameLength σ s h o) := by
  unfold SameLength
  infer_instance

/-- Items that are fed one after the other. -/
def feedItems (sha3 : Bytes → U256) (n : Nat) (careful : Bool) :
    List AssemblyItem → ExpressionClasses × KnownState × History → Option (ExpressionClasses × KnownState × History)
  | [], x => some x
  | item :: items, (s, σ, h) =>
    match observed sha3 n item σ s h.now, feedItem sha3 n item σ s with
    | some (effect, hashings), .ok (_, σ') s' =>
      if careful = true → ∀ o ∈ hashings, SameLength σ s' h o then
        feedItems sha3 n careful items (s', σ', h.next σ'.m_sequenceNumber effect hashings)
      else none
    | _, _ => none

theorem Run.feedItems {careful : Bool} {items : List AssemblyItem} {x : ExpressionClasses × KnownState × History}
    (hrun : Run sha3 n careful s σ h) (hfeed : feedItems sha3 n careful items (s, σ, h) = some x) : Run sha3 n careful x.1 x.2.1 x.2.2 := by
  induction items generalizing s σ h with
  | nil =>
    cases hfeed
    exact hrun
  | cons item items ih =>
    rw [KnownState.feedItems] at hfeed
    split at hfeed
    · rename_i hobserved hitem
      split at hfeed
      · rename_i hcareful
        exact ih (hrun.feedItem hobserved hitem hcareful) hfeed
      · cases hfeed
    · cases hfeed

/-- The hash of a word of zeros. -/
def hashOfZeros (b : Bytes) : U256 :=
  if b = List.replicate 32 0 then 0x290decd9548b62a8d60345a988386fc84ba6bc95484008f6362f93160ef3e563 else 0

/-- A run with the hash of a word of zeros that was stored, taken over for the same length. -/
theorem run_distinguishes_sample : ∃ s σ h, Run hashOfZeros levels true s σ h ∧ h.hashings.length = 2 ∧ Distinguishes hashOfZeros s h := by
  have hfeed : (feedItems hashOfZeros levels true [.push 0, .push 0, .ofInstruction .MSTORE, .push 32, .push 0, .ofInstruction .SHA3,
      .push 32, .push 0, .ofInstruction .SHA3] (⟨[], []⟩, {}, .start)).map (fun x => x.2.2.hashings.map (knownData x.1)) =
      some [some (List.replicate 32 0), some (List.replicate 32 0)] := by decide +kernel
  obtain ⟨x, hx, hdata⟩ := Option.map_eq_some_iff.mp hfeed
  have hstart : Run hashOfZeros levels true _ {} .start := Run.start Reached.start
  have hrun := hstart.feedItems hx
  have hknown : ∀ o ∈ x.2.2.hashings, ∀ d ∈ knownData x.1 o, d = List.replicate 32 0 := by
    intro o ho d hd
    have hmem := List.mem_map_of_mem (f := knownData x.1) ho
    rw [hdata, hd] at hmem
    simpa using hmem
  have hlength : x.2.2.hashings.length = 2 := by
    have hcount := congrArg List.length hdata
    rwa [List.length_map] at hcount
  refine ⟨x.1, x.2.1, x.2.2, hrun, hlength, run_distinguishes (le_refl _) hrun fun o ho o' ho' d hd d' hd' _ => ?_⟩
  rw [hknown o ho d hd, hknown o' ho' d' hd']

/-- The classes after 31 and then 32 bytes of the word at address 0 are hashed. -/
def shortClasses : List Expression := [⟨0, .push 31, [], 0⟩, ⟨1, .push 0, [], 0⟩, ⟨2, .ofInstruction .MLOAD, [1], 1⟩,
  ⟨3, .ofInstruction .SHA3, [1, 0], 1⟩, ⟨4, .push 32, [], 0⟩]

/-- The history of these hashes. -/
def shortHistory : History := ⟨⟨1, .changes⟩ :: List.replicate 6 ⟨1, .keeps⟩, [⟨1, 0, some [2], 3, 2⟩, ⟨1, 4, some [2], 3, 5⟩]⟩

/-- The hash of 32 bytes is taken over from that of the first 31 of them, whatever the hash function is. -/
theorem run_not_distinguishes : ¬ ∃ sha3 : Bytes → U256, ∀ s σ h, Run sha3 levels false s σ h → Collisionless sha3 s h →
    Distinguishes sha3 s h := by
  rintro ⟨sha3, hall⟩
  have hfeed : (feedItems sha3 levels false [.push 31, .push 0, .ofInstruction .SHA3, .push 32, .push 0, .ofInstruction .SHA3]
      (⟨[], []⟩, {}, .start)).map (fun x => (x.1.m_representatives, x.2.2)) = some (shortClasses, shortHistory) := by rfl
  obtain ⟨⟨⟨representatives, expressions⟩, σ, h⟩, hx, heq⟩ := Option.map_eq_some_iff.mp hfeed
  obtain ⟨rfl, rfl⟩ := Prod.mk.inj heq
  have hstart : Run sha3 levels false _ {} .start := Run.start Reached.start
  have hrun := hstart.feedItems hx
  have hcollisionless : Collisionless sha3 ⟨shortClasses, expressions⟩ shortHistory := by
    intro o ho o' _ d hd
    have hnone : ∀ o ∈ shortHistory.hashings, knownData ⟨shortClasses, expressions⟩ o = none := by
      intro o ho
      rcases List.mem_cons.mp ho with rfl | ho
      · rfl
      · rw [List.mem_singleton.mp ho]
        rfl
    rw [hnone o ho] at hd
    cases hd
  -- a memory of zeros
  have hword : ∀ a, word (fun _ => 0) a = 0 := by
    intro a
    have hread : ByteMemory.read (fun _ => 0) a 32 = List.replicate 32 0 := rfl
    rw [word, hread]
    decide
  let μ : Machine := ⟨fun i => if i = 3 then sha3 (List.replicate 31 0) else 0, fun _ _ => 0⟩
  have hconsistent : Consistent sha3 μ ⟨shortClasses, expressions⟩ shortHistory := by
    refine ⟨fun t x hx => ?_, fun e he hitem a _ t x _ _ => ?_, fun e he hitem a l ha t x _ _ => ?_⟩
    · have hkeeps : x = ⟨1, .keeps⟩ := List.eq_of_mem_replicate (List.mem_of_getElem? hx)
      rw [hkeeps]
      rfl
    · simp only [shortClasses, List.mem_cons, List.not_mem_nil, or_false] at he
      rcases he with rfl | rfl | rfl | rfl | rfl
      · exact absurd hitem (by decide)
      · exact absurd hitem (by decide)
      · exact (hword _).symm
      · exact absurd hitem (by decide)
      · exact absurd hitem (by decide)
    · simp only [shortClasses, List.mem_cons, List.not_mem_nil, or_false] at he
      rcases he with rfl | rfl | rfl | rfl | rfl
      · exact absurd hitem (by decide)
      · exact absurd hitem (by decide)
      · exact absurd hitem (by decide)
      · cases ha
        rfl
      · exact absurd hitem (by decide)
  have hsame := hall _ _ _ hrun hcollisionless _ List.mem_cons_self _ (List.mem_cons_of_mem _ (List.mem_singleton_self _)) rfl μ hconsistent
  have hlength := congrArg List.length hsame
  rw [Machine.hashed, Machine.hashed, ByteMemory.length_read, ByteMemory.length_read] at hlength
  have hshort : (μ.value ⟨shortClasses, expressions⟩ 0).toNat = 31 := rfl
  have hlong : (μ.value ⟨shortClasses, expressions⟩ 4).toNat = 32 := rfl
  rw [hshort, hlong] at hlength
  exact absurd hlength (by decide)

end KnownState

end Webthree
