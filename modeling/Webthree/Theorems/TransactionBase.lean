import Webthree.Lemmas.TransactionBase

/-!
# Encodings of transactions

A transaction that was read is written as the bytes it was read from, unless its receiver is the empty list, and a signed
transaction is read back from its encoding.
-/

namespace Webthree

namespace TransactionBase

open RLP

/-- What is read from a byte string is written as it again, and hashes to the hash of it, exactly if its receiver is not a list.
What is written for a signed transaction is read as that transaction. -/
theorem encoding_iff (C : Crypto) :
    (∀ (b : Bytes) (check : CheckTransaction) (t : TransactionBase), check ≠ .None → ofRLP C b check = .ok t →
      ((t.rlp .WithSignature = .ok b ∧ (t.sha3 C .WithSignature).map (·.1) = .ok (C.sha3 b)) ↔
        ∀ x, receiverItem b = .ok x → x.isList = false)) ∧
    ∀ (t : TransactionBase) (check : CheckTransaction), t.m_type ≠ .NullTransaction → t.m_vrs.isValid = true →
      t.m_data.length < 2 ^ 63 → check ≠ .None →
      ∃ b, t.rlp .WithSignature = .ok b ∧ (check = .Cheap → ofRLP C b check = .ok t.bare) ∧
        ∀ a, t.signer C = some a → check = .Everything → ofRLP C b check = .ok { t.bare with m_sender := a } := by
  constructor
  · intro b check t hc h
    obtain ⟨h0, hb⟩ := rlp_ofRLP hc h
    rw [← hb]
    refine and_iff_left_of_imp fun hb => ?_
    rw [sha3_eq_of_rlp h0 hb]
    rfl
  · intro t check hty hvalid hd hc
    have hreads := readsAs_written hty hvalid hd
    have hsmall := hreads.small
    unfold RLP.Small at hsmall
    refine ⟨wire t.written, rlp_eq hty (by omega) ?_, fun hcheap => ?_, fun a ha hall => ?_⟩
    · have hw : t.written = t.bare.items (Item.encodeData t.destination) (t.m_vrs.v.toNat + 27) := rfl
      rw [hw]
      omega
    · exact ofRLP_ok_iff.mpr ⟨_, _, _, hreads, fun _ => hvalid, by rw [if_neg (by simp [hcheap])]⟩
    · exact ofRLP_ok_iff.mpr ⟨_, _, _, hreads, fun _ => hvalid, by rw [if_pos hall]; exact ⟨a, sender_of_signer ha⟩⟩

/-- A hash function and a recovery that finds a key for each signature. -/
def sampleCrypto : Crypto := ⟨fun b => H256.ofU256 (BitVec.ofNat 256 b.length), fun _ _ => some [0x04]⟩

/-- A contract creation, with an item for the receiver. -/
def sampleCreation (receiver : UInt8) : Bytes := [0xc9, 0x80, 0x80, 0x80, receiver, 0x80, 0x80, 0x1b, 0x01, 0x01]

/-- What is read from it. -/
def sampleTransaction : TransactionBase :=
  { m_type := .ContractCreation, m_nonce := 0, m_value := 0, m_receiveAddress := 0, m_gasPrice := 0, m_gas := 0, m_data := []
    m_vrs := ⟨H256.ofU256 1, H256.ofU256 1, 0⟩, m_hashWith := H256.ofU256 0, m_sender := 0 }

theorem encoding_iff_sample :
    (∀ x, receiverItem (sampleCreation 0x80) = .ok x → x.isList = false) ∧
      ∃ b, sampleTransaction.rlp .WithSignature = .ok b ∧
        ofRLP sampleCrypto b .Everything = .ok { sampleTransaction.bare with m_sender := 1 } := by
  obtain ⟨hread, hwrite⟩ := encoding_iff sampleCrypto
  constructor
  · refine (hread (sampleCreation 0x80) .Cheap sampleTransaction (by decide) (by decide +kernel)).mp ⟨?_, ?_⟩
    · decide +kernel
    · decide +kernel
  · obtain ⟨b, hb, -, hall⟩ := hwrite sampleTransaction .Everything (by decide) (by decide +kernel) (by decide) (by decide)
    exact ⟨b, hb, hall 1 (by decide +kernel) rfl⟩

/-- A contract creation whose receiver is the empty list is accepted, and written with the empty string. -/
theorem not_encoding :
    ¬ ∀ (C : Crypto) (b : Bytes) (check : CheckTransaction) (t : TransactionBase), check ≠ .None → ofRLP C b check = .ok t →
      t.rlp .WithSignature = .ok b := by
  intro h
  have hlist : ofRLP sampleCrypto (sampleCreation 0xc0) .Cheap = .ok sampleTransaction := by decide +kernel
  have hstring : sampleTransaction.rlp .WithSignature = .ok (sampleCreation 0x80) := by decide +kernel
  have := Except.ok.inj (hstring.symm.trans (h _ _ _ _ (by decide) hlist))
  exact absurd this (by decide)

end TransactionBase

end Webthree
