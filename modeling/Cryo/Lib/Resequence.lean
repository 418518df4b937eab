import Mathlib.Data.List.Range
import Mathlib.Data.List.Perm.Basic
import Mathlib.Data.List.Nodup

/-!
# Putting items back in order

Items carry a number (`key`). A resequencer keeps the items that came too early in a queue with one item per number
and, after each arrival, hands out the items whose turn it is (`release`). If the items numbered `n`, `n + 1`, …
arrive in any order, each once, then exactly these items are handed out, in increasing order, and the queue ends
empty (`feed_perm`). The invariant is `Pending`: what is queued and what is still to come are together the items not
handed out yet, and the next one is not in the queue.
-/

namespace Resequence

variable {β : Type} (key : β → Nat)

/-- Puts an item in the queue, in place of one with the same number. -/
def insert (b : β) (q : List β) : List β := b :: q.filter (fun c => key c ≠ key b)

/-- Takes the item numbered `k` out of the queue. -/
def remove (k : Nat) (q : List β) : Option (β × List β) :=
  match q.find? (fun c => key c = k) with
  | some b => some (b, q.filter (fun c => key c ≠ k))
  | none => none

variable {key}

theorem remove_eq_none {k : Nat} {q : List β} : remove key k q = none ↔ ∀ c ∈ q, key c ≠ k := by
  unfold remove
  cases h : q.find? (fun c => key c = k) with
  | some b =>
    have hb := List.find?_some h
    simp only [reduceCtorEq, false_iff, not_forall]
    exact ⟨b, List.mem_of_find?_eq_some h, by simpa using hb⟩
  | none => simpa using h

theorem remove_some {k : Nat} {q q' : List β} {b : β} (h : remove key k q = some (b, q')) :
    b ∈ q ∧ key b = k ∧ q' = q.filter (fun c => key c ≠ k) := by
  unfold remove at h
  split at h
  · rename_i c hc
    obtain ⟨rfl, rfl⟩ : c = b ∧ q.filter (fun c => key c ≠ k) = q' := by simpa using h
    exact ⟨List.mem_of_find?_eq_some hc, by simpa using List.find?_some hc, rfl⟩
  · cases h

theorem remove_length_lt {k : Nat} {q q' : List β} {b : β} (h : remove key k q = some (b, q')) :
    q'.length < q.length := by
  obtain ⟨hb, hk, rfl⟩ := remove_some h
  rw [List.length_filter_lt_length_iff_exists]
  exact ⟨b, hb, by simp [hk]⟩

variable (key)

/-- Hands out the items from number `e` on, as long as the next one is queued: these items, the rest of the queue,
and the number now awaited. -/
def release (q : List β) (e : Nat) : List β × List β × Nat :=
  match _h : remove key e q with
  | some (b, q') => let r := release q' (e + 1); (b :: r.1, r.2)
  | none => ([], q, e)
termination_by q.length
decreasing_by exact remove_length_lt _h

/-- The queue and the awaited number, after some arrivals, with everything handed out so far. -/
def feed : List β → List β × Nat → List β × List β × Nat
  | [], (q, e) => ([], q, e)
  | b :: bs, (q, e) =>
    let r := release key (insert key b q) e
    let s := feed bs (r.2.1, r.2.2)
    (r.1 ++ s.1, s.2)

variable {key}

theorem release_none {q : List β} {e : Nat} (h : remove key e q = none) : release key q e = ([], q, e) := by
  rw [release]; split
  · rename_i h'; rw [h] at h'; cases h'
  · rfl

theorem release_some {q q' : List β} {e : Nat} {b : β} (h : remove key e q = some (b, q')) :
    release key q e = (b :: (release key q' (e + 1)).1, (release key q' (e + 1)).2) := by
  rw [release]; split
  · rename_i h'; rw [h] at h'; cases h'; rfl
  · rename_i h'; rw [h] at h'; cases h'

/-! ## The invariant -/

/-- `bs` are the items not handed out, numbered from `e` on: those queued in `q` and those still `coming`. -/
structure Pending (key : β → Nat) (bs q coming : List β) (e : Nat) : Prop where
  keys : bs.map key = List.range' e bs.length
  perm : (q ++ coming).Perm bs
  notNext : ∀ c ∈ q, key c ≠ e

theorem keys_nodup {bs : List β} {e : Nat} (h : bs.map key = List.range' e bs.length) : (bs.map key).Nodup := by
  rw [h]; exact List.nodup_range'

/-- Numbers are distinct, so taking out one number takes out one item. -/
theorem filter_perm_of_nodup {b : β} {l m : List β} (hp : l.Perm (b :: m)) (hn : ((b :: m).map key).Nodup) :
    (l.filter (fun c => key c ≠ key b)).Perm m := by
  have h1 := hp.filter (fun c => decide (key c ≠ key b))
  have hm : ∀ c ∈ m, key c ≠ key b := by
    intro c hc he
    rw [List.map_cons, List.nodup_cons] at hn
    exact hn.1 (he ▸ List.mem_map_of_mem hc)
  have h2 : (b :: m).filter (fun c => decide (key c ≠ key b)) = m := by
    rw [List.filter_cons_of_neg (by simp)]
    exact List.filter_eq_self.2 (fun c hc => by simpa using hm c hc)
  rwa [h2] at h1

/-- What one release hands out, when the queue may hold the next item. -/
theorem release_pending (q : List β) (e : Nat) : ∀ (bs coming : List β), bs.map key = List.range' e bs.length →
    (q ++ coming).Perm bs →
    ∃ out bs', release key q e = (out, (release key q e).2.1, e + out.length) ∧ bs = out ++ bs' ∧
      Pending key bs' (release key q e).2.1 coming (e + out.length) := by
  induction q, e using release.induct key with
  | case1 q e b q' h ih =>
    intro bs coming hk hp
    obtain ⟨hb, hkb, rfl⟩ := remove_some h
    have hmem : b ∈ bs := hp.subset (List.mem_append_left _ hb)
    cases bs with
    | nil => cases hmem
    | cons b₀ bs =>
      have hk' : key b₀ = e ∧ bs.map key = List.range' (e + 1) bs.length := by
        simpa [List.range'_succ] using hk
      have hnd := keys_nodup hk
      have hb₀ : b₀ = b := List.inj_on_of_nodup_map hnd List.mem_cons_self hmem (by rw [hk'.1, hkb])
      subst hb₀
      have hcoming : ∀ c ∈ coming, key c ≠ key b₀ := by
        have hnd' : ((q ++ coming).map key).Nodup := (hp.map key).nodup_iff.2 hnd
        rw [List.map_append, List.nodup_append] at hnd'
        exact fun c hc he => hnd'.2.2 _ (List.mem_map_of_mem hb) _ (List.mem_map_of_mem hc) he.symm
      have hp' : (q.filter (fun c => key c ≠ e) ++ coming).Perm bs := by
        have hc : coming.filter (fun c => key c ≠ key b₀) = coming :=
          List.filter_eq_self.2 (fun c hc => by simpa using hcoming c hc)
        have := filter_perm_of_nodup hp hnd
        rwa [List.filter_append, hc, hk'.1] at this
      obtain ⟨out, bs', h1, h2, h3⟩ := ih bs coming hk'.2 hp'
      have hlen : e + 1 + out.length = e + (b₀ :: out).length := by simp; omega
      refine ⟨b₀ :: out, bs', ?_, by rw [h2, List.cons_append], ?_⟩
      · rw [release_some h, h1, hlen]
      · rw [release_some h]
        rw [hlen] at h3
        exact h3
  | case2 q e h =>
    intro bs coming hk hp
    rw [release_none h]
    exact ⟨[], bs, rfl, rfl, by simpa using hk, hp, by simpa using remove_eq_none.1 h⟩

/-- One arrival keeps the invariant. -/
theorem insert_perm {bs q coming : List β} {b : β} {e : Nat} (h : Pending key bs q (b :: coming) e) :
    (insert key b q ++ coming).Perm bs := by
  have hnd : ((q ++ b :: coming).map key).Nodup := (h.perm.map key).nodup_iff.2 (keys_nodup h.keys)
  have hq : q.filter (fun c => key c ≠ key b) = q := by
    refine List.filter_eq_self.2 (fun c hc => ?_)
    rw [List.map_append, List.nodup_append] at hnd
    simpa using hnd.2.2 _ (List.mem_map_of_mem hc) (key b) (by simp)
  unfold insert
  rw [hq]
  exact List.perm_middle.symm.trans h.perm

/-- Everything still to come arrives: all that was pending is handed out, in order. -/
theorem feed_pending : ∀ (coming bs q : List β) (e : Nat), Pending key bs q coming e →
    feed key coming (q, e) = (bs, [], e + bs.length)
  | [], bs, q, e, h => by
    have hq : bs = [] := by
      cases bs with
      | nil => rfl
      | cons b bs =>
        have hk : key b = e := by have := h.keys; simp [List.range'_succ] at this; exact this.1
        have hb : b ∈ q := by simpa using h.perm.symm.subset List.mem_cons_self
        exact absurd hk (h.notNext b hb)
    subst hq
    have : q = [] := by simpa using h.perm
    simp [feed, this]
  | b :: coming, bs, q, e, h => by
    obtain ⟨out, bs', h1, rfl, h3⟩ := release_pending (insert key b q) e bs coming h.keys (insert_perm h)
    have h2 : (release key (insert key b q) e).1 = out := congrArg Prod.fst h1
    have he : (release key (insert key b q) e).2.2 = e + out.length := congrArg (·.2.2) h1
    rw [feed]
    simp only [h2, he]
    rw [feed_pending coming bs' _ _ h3, List.length_append, Nat.add_assoc]

/-- After some arrivals, the items handed out are the first of all. -/
theorem feed_pending_le : ∀ (arrivals coming bs q : List β) (e : Nat), Pending key bs q (arrivals ++ coming) e →
    (feed key arrivals (q, e)).1 <+: bs
  | [], _, bs, _, _, _ => List.nil_prefix
  | b :: arrivals, coming, bs, q, e, h => by
    obtain ⟨out, bs', h1, rfl, h3⟩ := release_pending (insert key b q) e bs (arrivals ++ coming) h.keys (insert_perm h)
    have h2 : (release key (insert key b q) e).1 = out := congrArg Prod.fst h1
    have he : (release key (insert key b q) e).2.2 = e + out.length := congrArg (·.2.2) h1
    rw [feed]
    simp only [h2, he]
    exact (List.prefix_append_right_inj out).2 (feed_pending_le arrivals coming bs' _ _ h3)

/-- **Any beginning of the arrivals** hands out a beginning of the items. -/
theorem feed_prefix {bs arrivals coming : List β} {n : Nat} (hk : bs.map key = List.range' n bs.length)
    (hp : (arrivals ++ coming).Perm bs) : (feed key arrivals ([], n)).1 <+: bs :=
  feed_pending_le arrivals coming bs [] n ⟨hk, by simpa using hp, by simp⟩

/-- **Any arrival order** of the items numbered `n`, `n + 1`, … hands them out in increasing order. -/
theorem feed_perm {bs arrivals : List β} {n : Nat} (hk : bs.map key = List.range' n bs.length)
    (hp : arrivals.Perm bs) : feed key arrivals ([], n) = (bs, [], n + bs.length) :=
  feed_pending arrivals bs [] n ⟨hk, by simpa using hp, by simp⟩

end Resequence
