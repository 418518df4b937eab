import Cryo.Lib.Aead
import Cryo.Writer

/-!
# Sealed blocks are bound to their place

The associated data of a block are its number and the id of the archive, those of an index the number that no block has
(`aad_inj`). With ideal ciphers (`Crates.Ideal`) a sealed block opens in its place only.

* `sealed_in_place`: this, that blocks and indexes are not taken for each other, and that the writer's copy of the
  sealing agrees with that of `codec`.
-/

namespace Cryo

open Posix Bytes

/-- Both ciphers are ideal. -/
structure Crates.Ideal (K : Crates) : Prop where
  aes : Aead.Ideal K.aesEncrypt K.aesDecrypt
  chacha : Aead.Ideal K.chachaEncrypt K.chachaDecrypt

/-- **The associated data tell numbers and archives apart.** -/
theorem aad_inj {i j : Nat} {a b : ArchiveId} (hi : i < 2 ^ 64) (hj : j < 2 ^ 64) :
    aad i a = aad j b ↔ i = j ∧ a = b := by
  constructor
  · intro h
    obtain ⟨hnum, hid⟩ := List.append_inj h (by simp)
    refine ⟨?_, Vector.toList_inj.1 hid⟩
    rw [← leVal_leBytes (show i < 256 ^ 8 from hi), hnum, leVal_leBytes (show j < 256 ^ 8 from hj)]
  · rintro ⟨rfl, rfl⟩
    rfl

variable {K : Crates} {cipher : Cipher} {encd encd' : EncryptedData} {i j : Nat} {a : ArchiveId} {h : Header}
  {m m' c : Bytes}

theorem sealed_ok {o : Option Bytes} {message : String} : sealed o message = .ok c ↔ o = some c := by
  cases o <;> simp [sealed]

/-- **What was sealed opens under the same nonce and associated data**, and under no others. -/
theorem decryptBlock_iff (hK : K.Ideal) (hcipher : cipher ≠ .none) (hc : encryptBlock K i m encd a cipher = .ok c) :
    decryptBlock K encd' cipher h c j = .ok m' ↔ encd'.seal j h.archiveId = encd.seal i a ∧ m' = m := by
  unfold encryptBlock at hc
  unfold decryptBlock
  rw [Prod.ext_iff]
  cases cipher with
  | none => exact absurd rfl hcipher
  | aes k =>
    dsimp only at hc ⊢
    rw [sealed_ok, hK.aes.open_iff (sealed_ok.1 hc)]
    simp
  | chacha k =>
    dsimp only at hc ⊢
    rw [sealed_ok, hK.chacha.open_iff (sealed_ok.1 hc)]
    simp

/-- **Sealed blocks are bound to their place.** Ideal ciphers: a sealed block opens as the block of its number in its
archive and nowhere else, a block is no index and an index no block. The writer seals as `codec` does, and opening
undoes both. -/
theorem sealed_in_place (hK : K.Ideal) (hcipher : cipher ≠ .none) :
    (∀ i j m n a h c, i < u64Max → j < u64Max → encryptBlock K i m (.block n) a cipher = .ok c →
      ((∃ m', decryptBlock K (.block n) cipher h c j = .ok m') ↔ i = j ∧ a = h.archiveId) ∧
      ∀ m', decryptBlock K (.block n) cipher h c j = .ok m' → m' = m) ∧
    (∀ i j m n n' a h c, i < u64Max → encryptBlock K i m (.block n) a cipher = .ok c →
      ∀ m', decryptBlock K (.index n') cipher h c j ≠ .ok m') ∧
    (∀ i j m n n' a h c, j < u64Max → encryptBlock K i m (.index n) a cipher = .ok c →
      ∀ m', decryptBlock K (.block n') cipher h c j ≠ .ok m') ∧
    (∀ (arch : ArchiveWriter) i m n, arch.encryptBlock K m (.index n)
      = encryptBlock K i m (.index n) arch.header.archiveId arch.cipher) ∧
    (∀ (arch : ArchiveWriter) i m n, arch.index.block.length = i → arch.encryptBlock K m (.block n)
      = encryptBlock K i m (.block n) arch.header.archiveId arch.cipher) ∧
    (∀ i m encd h c, encryptBlock K i m encd h.archiveId cipher = .ok c →
      decryptBlock K encd cipher h c i = .ok m) ∧
    ∀ (arch : ArchiveWriter) m encd c, arch.encryptBlock K m encd = .ok c → arch.cipher = cipher →
      decryptBlock K encd cipher arch.header c arch.index.block.length = .ok m := by
  have hmax : u64Max < 2 ^ 64 := by decide
  have hundo : ∀ i m encd h c, encryptBlock K i m encd h.archiveId cipher = .ok c →
      decryptBlock K encd cipher h c i = .ok m := fun i m encd h c hc =>
    (decryptBlock_iff hK hcipher hc).2 ⟨rfl, rfl⟩
  refine ⟨fun i j m n a h c hi hj hc => ⟨?_, fun m' hm' => ((decryptBlock_iff hK hcipher hc).1 hm').2⟩,
    fun i j m n n' a h c hi hc m' hm' => ?_, fun i j m n n' a h c hj hc m' hm' => ?_, fun _ _ _ _ => rfl,
    fun _ _ _ _ hi => by subst hi; rfl, hundo, fun arch m encd c hc hsame => ?_⟩
  · constructor
    · rintro ⟨m', hm'⟩
      obtain ⟨hplace, _⟩ := (decryptBlock_iff hK hcipher hc).1 hm'
      obtain ⟨rfl, rfl⟩ := (aad_inj (by omega) (by omega)).1 (Prod.mk.inj hplace).2
      exact ⟨rfl, rfl⟩
    · rintro ⟨rfl, rfl⟩
      exact ⟨m, hundo _ _ _ _ _ hc⟩
  · obtain ⟨hplace, _⟩ := (decryptBlock_iff hK hcipher hc).1 hm'
    obtain ⟨hnum, _⟩ := (aad_inj hmax (by omega)).1 (Prod.mk.inj hplace).2
    omega
  · obtain ⟨hplace, _⟩ := (decryptBlock_iff hK hcipher hc).1 hm'
    obtain ⟨hnum, _⟩ := (aad_inj (by omega) hmax).1 (Prod.mk.inj hplace).2
    omega
  · subst hsame
    refine hundo _ _ _ _ _ (Eq.trans ?_ hc)
    cases encd <;> rfl

/-- Ciphertexts that show what they were sealed with. -/
def labelled (k : Key) (n : Nonce) (a m : Bytes) : Option Bytes :=
  if a.length = 24 then some (k.toList ++ n.toList ++ a ++ m) else none

def unlabelled (k : Key) (n : Nonce) (a c : Bytes) : Option Bytes :=
  if c.take 68 = k.toList ++ n.toList ++ a then some (c.drop 68) else none

theorem labelled_ideal : Aead.Ideal labelled unlabelled where
  opens {k n a m c} hc := by
    unfold labelled at hc
    split at hc
    · rename_i ha
      cases hc
      have hlen : (k.toList ++ n.toList ++ a).length = 68 := by simp [ha]
      unfold unlabelled
      rw [List.take_left' hlen, if_pos rfl, List.drop_left' hlen]
    · cases hc
  binds {k n a m c k' n' a' m'} hc hopen := by
    unfold labelled at hc
    split at hc
    · rename_i ha
      cases hc
      have hlen : (k.toList ++ n.toList ++ a).length = 68 := by simp [ha]
      unfold unlabelled at hopen
      rw [List.take_left' hlen] at hopen
      split at hopen
      · rename_i heq
        obtain ⟨hkn, hdata⟩ := List.append_inj heq (by simp)
        obtain ⟨hk, hn⟩ := List.append_inj hkn (by simp)
        exact ⟨(Vector.toList_inj.1 hk).symm, (Vector.toList_inj.1 hn).symm, hdata.symm⟩
      · cases hopen
    · cases hc

/-- Block 3 of an archive opens as block 3 and not as block 4. -/
theorem sealed_in_place_three :
    let K := { Crates.tabled [] [] with
      aesEncrypt := labelled, aesDecrypt := unlabelled, chachaEncrypt := labelled, chachaDecrypt := unlabelled }
    let cipher := Cipher.aes (Vector.replicate 32 7)
    let n : Nonce := Vector.replicate 12 1
    let h := Header.stored 2
    ∃ c, encryptBlock K 3 [5] (.block n) h.archiveId cipher = .ok c ∧
      (∃ m', decryptBlock K (.block n) cipher h c 3 = .ok m') ∧
      ¬ ∃ m', decryptBlock K (.block n) cipher h c 4 = .ok m' := by
  intro K cipher n h
  obtain ⟨hplace, _⟩ := sealed_in_place (K := K) ⟨labelled_ideal, labelled_ideal⟩ (show cipher ≠ .none by simp [cipher])
  have hsealed : (aad 3 h.archiveId).length = 24 := by decide +kernel
  have hc : encryptBlock K 3 [5] (.block n) h.archiveId cipher
      = .ok ((Vector.replicate 32 7).toList ++ n.toList ++ aad 3 h.archiveId ++ [5]) := by
    refine sealed_ok.2 ?_
    simp only [K, labelled, if_pos hsealed]
  refine ⟨_, hc, (hplace 3 3 [5] n _ h _ (by decide) (by decide) hc).1.2 ⟨rfl, rfl⟩, fun hopen => ?_⟩
  obtain ⟨hnum, _⟩ := (hplace 3 4 [5] n _ h _ (by decide) (by decide) hc).1.1 hopen
  cases hnum

end Cryo
