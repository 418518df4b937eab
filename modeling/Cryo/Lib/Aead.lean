/-!
# Ideal authenticated encryption

A pair of functions that seal a message with a key, a nonce and associated data, and open what was sealed. Of an ideal
one, a ciphertext opens under what it was sealed with and under nothing else (`Ideal`), so that it is bound to its
associated data (`Ideal.open_iff`).
-/

namespace Aead

variable {Key Nonce Data Message Ciphertext : Type}

/-- What was sealed opens, under the same key, nonce and associated data only. -/
structure Ideal (enc : Key → Nonce → Data → Message → Option Ciphertext)
    (dec : Key → Nonce → Data → Ciphertext → Option Message) : Prop where
  opens : ∀ {k n a m c}, enc k n a m = some c → dec k n a c = some m
  binds : ∀ {k n a m c k' n' a' m'}, enc k n a m = some c → dec k' n' a' c = some m' → k' = k ∧ n' = n ∧ a' = a

namespace Ideal

variable {enc : Key → Nonce → Data → Message → Option Ciphertext}
  {dec : Key → Nonce → Data → Ciphertext → Option Message} {k k' : Key} {n n' : Nonce} {a a' : Data}
  {m m' : Message} {c : Ciphertext}

/-- **A ciphertext opens where it was sealed**, and to its message. -/
theorem open_iff (h : Ideal enc dec) (hc : enc k n a m = some c) :
    dec k' n' a' c = some m' ↔ (k' = k ∧ n' = n ∧ a' = a) ∧ m' = m := by
  constructor
  · intro hopen
    obtain ⟨rfl, rfl, rfl⟩ := h.binds hc hopen
    exact ⟨⟨rfl, rfl, rfl⟩, Option.some.inj (hopen.symm.trans (h.opens hc))⟩
  · rintro ⟨⟨rfl, rfl, rfl⟩, rfl⟩
    exact h.opens hc

end Ideal

end Aead
