import SalernosKernel.TlbShootdown

/-! # Requests of a TLB shootdown

From the IPI to the count of the handler a request belongs to the call that sent it. -/
namespace TlbShootdown

open Function
open State (goto enterIsr)
open Finset

variable {n : ℕ} {S : Setup n} {s s' : State n} {e : Event n} {c t : Fin n} {p q : Pc n}

def Waiting (s : State n) (t : Fin n) : Prop := s.pending t ∨ s.isr t = some .invalidate

def Outstanding (s : State n) (t : Fin n) : Prop := Waiting s t ∨ s.isr t = some .count

instance (s : State n) (t : Fin n) : Decidable (Outstanding s t) :=
  inferInstanceAs (Decidable ((_ ∨ _) ∨ _))

def outstandingOf (s : State n) (c : Fin n) : Finset (Fin n) :=
  univ.filter fun t => Outstanding s t ∧ s.owner t = c

theorem mem_outstandingOf : t ∈ outstandingOf s c ↔ Outstanding s t ∧ s.owner t = c := by
  simp [outstandingOf]

structure RequestInvariant (S : Setup n) (s : State n) : Prop where
  passed : ∀ t, Outstanding s t → S.doShootdown (s.request (s.owner t)) ∧
    t.val < (s.pc (s.owner t)).index
  counts : ∀ c, s.pc c ≠ .idle →
    s.numOtherCpus c = s.counter c + (outstandingOf s c).card
  targets : ∀ c, s.pc c ≠ .idle → ∀ t, t ∈ s.targeted c ↔
    S.doShootdown (s.request c) ∧ S.runs t ∧ t ≠ c ∧ t.val < (s.pc c).index
  ran : ∀ c, s.pc c ≠ .idle → ∀ t ∈ s.targeted c,
    t ∈ s.ran c ∨ Waiting s t ∧ s.owner t = c ∧ s.args t = s.request c

theorem RequestInvariant.initial (S : Setup n) : RequestInvariant S (initial S) := by
  constructor
  · rintro t ((h | h) | h)
    · simp [TlbShootdown.initial] at h
    · simp [TlbShootdown.initial] at h
    · simp [TlbShootdown.initial] at h
  · intro c hc
    exact absurd rfl hc
  · intro c hc
    exact absurd rfl hc
  · intro c hc
    exact absurd rfl hc

section

variable (h : RequestInvariant S s)

include h

theorem RequestInvariant.move (hl : LocalInvariant S s)
    (hm : Moves s s' c p q) (he : Edge S (s.request c) c p q) : RequestInvariant S s' := by
  have hwt : ∀ t, Waiting s' t ↔ Waiting s t := by
    intro t
    rw [Waiting, Waiting, hm.pending, hm.isr]
  have hou : ∀ t, Outstanding s' t ↔ Outstanding s t := by
    intro t
    rw [Outstanding, Outstanding, hwt, hm.isr]
  have hbs : ∀ x, s'.pc x ≠ .idle → s.pc x ≠ .idle := by
    intro x hx
    rw [hm.pc, update_apply] at hx
    split at hx
    · rename_i hxc
      rw [hxc, hm.src.2]
      exact he.busy
    · exact hx
  constructor
  · intro t ht
    obtain ⟨hs, hlt⟩ := h.passed t ((hou t).mp ht)
    rw [hm.owner, hm.request, hm.pc, update_apply]
    refine ⟨hs, ?_⟩
    split
    · rename_i hc
      rw [hc, hm.src.2] at hlt
      exact hlt.trans_le (he.index (hm.src.2 ▸ hl.placed c))
    · exact hlt
  · intro x hx
    have hst : outstandingOf s' x = outstandingOf s x := by
      ext t
      rw [mem_outstandingOf, mem_outstandingOf, hou, hm.owner]
    rw [hm.numOtherCpus, hm.counter, hst]
    exact h.counts x (hbs x hx)
  · intro x hx t
    rw [hm.targeted, h.targets x (hbs x hx) t, hm.request, hm.pc, update_apply]
    split
    · rename_i hxc
      subst hxc
      rw [hm.src.2]
      constructor
      · rintro ⟨hs, hr, hne, hlt⟩
        exact ⟨hs, hr, hne, (he.passes hs t hr hne).mpr hlt⟩
      · rintro ⟨hs, hr, hne, hlt⟩
        exact ⟨hs, hr, hne, (he.passes hs t hr hne).mp hlt⟩
    · rfl
  · intro x hx t ht
    rw [hm.targeted] at ht
    rw [hm.ran, hwt, hm.owner, hm.args, hm.request]
    exact h.ran x (hbs x hx) t ht

theorem RequestInvariant.handler {i : Option Isr}
    (hs' : s' = { s.enterIsr c i with pending := s'.pending, shootdownLock := s'.shootdownLock })
    (hwt : ∀ t, Waiting s' t ↔ Waiting s t) (hou : ∀ t, Outstanding s' t ↔ Outstanding s t) :
    RequestInvariant S s' := by
  have hst : ∀ x, outstandingOf s' x = outstandingOf s x := by
    intro x
    ext t
    rw [mem_outstandingOf, mem_outstandingOf, hou, hs']
    rfl
  constructor
  · intro t ht
    rw [hs']
    exact h.passed t ((hou t).mp ht)
  · intro x hx
    rw [hst, hs']
    rw [hs'] at hx
    exact h.counts x hx
  · rw [hs']
    exact h.targets
  · intro x hx t ht
    rw [hwt]
    rw [hs'] at hx ht ⊢
    exact h.ran x hx t ht

theorem RequestInvariant.owner_ne (ht : Outstanding s t)
    (hc : s.pc c = .idle) : s.owner t ≠ c := by
  rintro rfl
  have hlt := (h.passed t ht).2
  rw [hc] at hlt
  exact Nat.not_lt_zero _ hlt

theorem RequestInvariant.call (he : Enabled S s (.call c)) :
    RequestInvariant S (next S s (.call c)) := by
  have how : ∀ t, Outstanding s t → s.owner t ≠ c := fun t ht => h.owner_ne ht he.1.2
  constructor
  · intro t ht
    have hps := h.passed t ht
    simpa [next, goto, how t ht] using hps
  · intro x hx
    by_cases hxc : x = c
    · subst hxc
      have hno : outstandingOf (next S s (.call x)) x = ∅ := by
        rw [eq_empty_iff_forall_notMem]
        intro t ht
        obtain ⟨ht, htx⟩ := mem_outstandingOf.mp ht
        exact how t ht htx
      rw [hno]
      simp [next]
    · have hcn := h.counts x
      simp only [next, goto, update_of_ne hxc] at hx ⊢
      exact hcn hx
  · intro x hx t
    by_cases hxc : x = c
    · subst hxc
      simp [next, goto, Pc.index]
    · have htr := h.targets x
      simp only [next, goto, update_of_ne hxc] at hx ⊢
      exact htr hx t
  · intro x hx t ht
    by_cases hxc : x = c
    · subst hxc
      simp [next] at ht
    · have hra := h.ran x
      simp only [next, goto, update_of_ne hxc] at hx ht ⊢
      exact hra hx t ht

theorem RequestInvariant.ret (he : Enabled S s (.ret c)) :
    RequestInvariant S (next S s (.ret c)) := by
  have hbs : s.pc c ≠ .idle := by simp [he.1.2]
  have how : ∀ t, Outstanding s t → s.owner t ≠ c := by
    rintro t ht rfl
    have hcn := h.counts _ hbs
    rw [he.2 (h.passed t ht).1] at hcn
    have hpo : 0 < (outstandingOf s (s.owner t)).card :=
      card_pos.mpr ⟨t, mem_outstandingOf.mpr ⟨ht, rfl⟩⟩
    omega
  have hne : ∀ x, (next S s (.ret c)).pc x ≠ .idle → x ≠ c := by
    rintro x hx rfl
    simp [next, goto] at hx
  constructor
  · intro t ht
    have hps := h.passed t ht
    simpa [next, goto, how t ht] using hps
  · intro x hx
    have hxc := hne x hx
    have hcn := h.counts x
    simp only [next, goto, update_of_ne hxc] at hx ⊢
    exact hcn hx
  · intro x hx t
    have hxc := hne x hx
    have htr := h.targets x
    simp only [next, goto, update_of_ne hxc] at hx ⊢
    exact htr hx t
  · intro x hx t ht
    have hxc := hne x hx
    have hra := h.ran x
    simp only [next, goto, update_of_ne hxc] at hx ⊢
    exact hra hx t ht

end

theorem LockInvariant.not_outstanding (h : LockInvariant s) (hc : s.pc c = .sdPost t) :
    ¬ Outstanding s t := by
  have hlc := h.shootdown t
  have hle : (s.shootdownLock t).toNat ≤ 1 := Bool.toNat_le _
  have hhd : 0 < atCount s (.sdPost t) := atCount_pos hc
  rintro ((hp | hi) | hi)
  · rw [hp, Bool.toNat_true] at hlc
    omega
  · rw [hi, show Isr.busy (some .invalidate) = true from rfl, Bool.toNat_true] at hlc
    omega
  · rw [hi, show Isr.busy (some .count) = true from rfl, Bool.toNat_true] at hlc
    omega

theorem waiting_sdPost {x : Fin n} : Waiting (next S s (.sdPost c t)) x ↔ x = t ∨ Waiting s x := by
  by_cases hx : x = t
  · simp [Waiting, next, hx]
  · simp [Waiting, next, goto, hx]

theorem outstanding_sdPost {x : Fin n} :
    Outstanding (next S s (.sdPost c t)) x ↔ x = t ∨ Outstanding s x := by
  rw [Outstanding, Outstanding, waiting_sdPost, or_assoc]
  rfl

theorem outstandingOf_sdPost {x : Fin n} (hfr : ¬ Outstanding s t) :
    outstandingOf (next S s (.sdPost c t)) x =
      if x = c then insert t (outstandingOf s x) else outstandingOf s x := by
  ext y
  rw [mem_outstandingOf, outstanding_sdPost]
  split_ifs with hxc
  · rw [mem_insert, mem_outstandingOf]
    by_cases hy : y = t
    · simp [next, hy, hxc]
    · simp [next, goto, hy]
  · rw [mem_outstandingOf]
    by_cases hy : y = t
    · simp [next, hy, Ne.symm hxc, hfr]
    · simp [next, goto, hy]

section

variable (h : RequestInvariant S s)

include h

theorem RequestInvariant.sdPost (hl : LocalInvariant S s)
    (hk : LockInvariant s) (he : Enabled S s (.sdPost c t)) :
    RequestInvariant S (next S s (.sdPost c t)) := by
  have hpc : s.pc c = .sdPost t := he.2
  have hbs : s.pc c ≠ .idle := by simp [hpc]
  have hfr : ¬ Outstanding s t := hk.not_outstanding hpc
  obtain ⟨htc, hsh, hrn⟩ : t ≠ c ∧ S.doShootdown (s.request c) ∧ S.runs t := by
    have hpl := hl.placed c
    rwa [hpc] at hpl
  have hbs' : ∀ x, (next S s (.sdPost c t)).pc x ≠ .idle → s.pc x ≠ .idle := by
    intro x hx
    by_cases hxc : x = c
    · rw [hxc]
      exact hbs
    · simpa [next, goto, hxc] using hx
  constructor
  · intro x hx
    by_cases hxt : x = t
    · subst hxt
      simpa [next, goto, Pc.index] using hsh
    · obtain ⟨hs, hlt⟩ := h.passed x ((outstanding_sdPost.mp hx).resolve_left hxt)
      simp only [next, goto, update_of_ne hxt]
      refine ⟨hs, ?_⟩
      by_cases hxc : s.owner x = c
      · rw [hxc, hpc] at hlt
        rw [hxc, update_self]
        exact Nat.lt_succ_of_lt hlt
      · rwa [update_of_ne hxc]
  · intro x hx
    have hcn := h.counts x (hbs' x hx)
    rw [outstandingOf_sdPost hfr]
    by_cases hxc : x = c
    · subst hxc
      rw [if_pos rfl, card_insert_of_notMem fun ht => hfr (mem_outstandingOf.mp ht).1]
      simp only [next, goto, update_self]
      omega
    · rw [if_neg hxc]
      simpa only [next, goto, update_of_ne hxc] using hcn
  · intro x hx y
    have htr := h.targets x (hbs' x hx) y
    by_cases hxc : x = c
    · subst hxc
      rw [hpc] at htr
      simp only [next, goto, update_self, mem_insert, Pc.index, htr]
      constructor
      · rintro (rfl | ⟨hs, hr, hne, hlt⟩)
        · exact ⟨hsh, hrn, htc, Nat.lt_succ_self _⟩
        · exact ⟨hs, hr, hne, Nat.lt_succ_of_lt hlt⟩
      · rintro ⟨hs, hr, hne, hlt⟩
        rcases Nat.lt_succ_iff_lt_or_eq.mp hlt with hlt | heq
        · exact .inr ⟨hs, hr, hne, hlt⟩
        · exact .inl (Fin.ext heq)
    · simpa only [next, goto, update_of_ne hxc] using htr
  · intro x hx y hy
    rw [waiting_sdPost]
    by_cases hyt : y = t
    · subst hyt
      by_cases hxc : x = c
      · subst hxc
        right
        simp [next, goto]
      · have hold : y ∈ s.targeted x := by
          simpa [next, goto, hxc] using hy
        rcases h.ran x (hbs' x hx) y hold with hra | ⟨hw, -, -⟩
        · exact .inl hra
        · exact absurd (.inl hw) hfr
    · have hold : y ∈ s.targeted x := by
        by_cases hxc : x = c
        · subst hxc
          simpa [next, goto, hyt] using hy
        · simpa [next, goto, hxc] using hy
      simpa [next, goto, hyt] using h.ran x (hbs' x hx) y hold

theorem RequestInvariant.isrInvalidate
    (he : Enabled S s (.isrInvalidate c)) :
    RequestInvariant S (next S s (.isrInvalidate c)) := by
  have his : s.isr c = some .invalidate := he
  have hwt : ∀ t, t ≠ c → (Waiting (next S s (.isrInvalidate c)) t ↔
      Waiting s t) := by
    intro t ht
    simp [Waiting, next, enterIsr, ht]
  have hou : ∀ t, Outstanding (next S s (.isrInvalidate c)) t ↔ Outstanding s t := by
    intro t
    by_cases ht : t = c
    · subst ht
      simp [Outstanding, Waiting, next, enterIsr, his]
    · rw [Outstanding, Outstanding, hwt t ht]
      simp [next, enterIsr, ht]
  constructor
  · intro t ht
    exact h.passed t ((hou t).mp ht)
  · intro x hx
    have hst : outstandingOf (next S s (.isrInvalidate c)) x = outstandingOf s x := by
      ext t
      rw [mem_outstandingOf, mem_outstandingOf, hou]
      rfl
    rw [hst]
    exact h.counts x hx
  · exact h.targets
  · intro x hx t ht
    have hmn : s.ran x ⊆ (next S s (.isrInvalidate c)).ran x := by
      simp only [next, update_apply]
      split
      · rename_i hxo
        split
        · rw [hxo]
          exact subset_insert _ _
        · rw [hxo]
      · exact Subset.refl _
    rcases h.ran x hx t ht with hra | ⟨hw, how, har⟩
    · exact .inl (hmn hra)
    · by_cases htc : t = c
      · subst htc
        left
        subst how
        simp [next, har]
      · exact .inr ⟨(hwt t htc).mpr hw, how, har⟩

theorem RequestInvariant.isrCount (hk : LockInvariant s)
    (he : Enabled S s (.isrCount c)) :
    RequestInvariant S (next S s (.isrCount c)) := by
  have his : s.isr c = some .count := he
  have hpn : s.pending c = false := hk.not_pending (by rw [his]; rfl)
  have hwt : ∀ t, Waiting (next S s (.isrCount c)) t ↔ Waiting s t := by
    intro t
    by_cases ht : t = c
    · subst ht
      simp [Waiting, next, enterIsr, his]
    · simp [Waiting, next, enterIsr, ht]
  have hou : ∀ t, Outstanding (next S s (.isrCount c)) t ↔
      t ≠ c ∧ Outstanding s t := by
    intro t
    rw [Outstanding, Outstanding, hwt]
    by_cases ht : t = c
    · subst ht
      simp [Waiting, next, enterIsr, his, hpn]
    · simp [next, enterIsr, ht]
  have hst : ∀ x, outstandingOf (next S s (.isrCount c)) x =
      (outstandingOf s x).erase c := by
    intro x
    ext t
    rw [mem_erase, mem_outstandingOf, mem_outstandingOf, hou, and_assoc]
    rfl
  constructor
  · intro t ht
    exact h.passed t ((hou t).mp ht).2
  · intro x hx
    have hcn := h.counts x hx
    rw [hst]
    by_cases hxo : x = s.owner c
    · subst hxo
      have hme : c ∈ outstandingOf s (s.owner c) := mem_outstandingOf.mpr ⟨.inr his, rfl⟩
      have hcr := card_erase_add_one hme
      simp only [next, enterIsr, update_self]
      omega
    · have hme : c ∉ outstandingOf s x := fun hc => hxo (mem_outstandingOf.mp hc).2.symm
      rw [erase_eq_of_notMem hme]
      simpa only [next, enterIsr, update_of_ne hxo] using hcn
  · exact h.targets
  · intro x hx t ht
    rw [hwt]
    exact h.ran x hx t ht

theorem RequestInvariant.next (hl : LocalInvariant S s)
    (hk : LockInvariant s) (he : Enabled S s e) : RequestInvariant S (next S s e) := by
  by_cases hmv : IsMove e
  · obtain ⟨c, p, q, hm, hed⟩ := exists_move he hmv
    exact h.move hl hm hed
  cases e with
  | call c => exact h.call he
  | sdPost c t => exact h.sdPost hl hk he
  | ret c => exact h.ret he
  | irq c =>
    have hwt : ∀ t, Waiting (next S s (.irq c)) t ↔ Waiting s t := by
      intro t
      by_cases ht : t = c
      · subst ht
        simp [Waiting, next, enterIsr, he.1]
      · simp [Waiting, next, enterIsr, ht]
    refine h.handler (c := c) (i := some .invalidate) rfl hwt fun t => ?_
    rw [Outstanding, Outstanding, hwt]
    by_cases ht : t = c
    · subst ht
      simp [next, enterIsr, he.2.1]
    · simp [next, enterIsr, ht]
  | isrInvalidate c => exact h.isrInvalidate he
  | isrCount c => exact h.isrCount hk he
  | isrRelease c | isrExit c =>
    have his : s.isr c = _ := he
    refine h.handler (c := c) rfl (fun t => ?_) fun t => ?_
    · by_cases ht : t = c <;> simp [Waiting, next, enterIsr, ht, his]
    · by_cases ht : t = c <;>
        simp [Outstanding, Waiting, next, enterIsr, ht, his]
  | skip | rqEnter | rqTake | rqDrop | rqLeave | sdEnter | sdTake | sdLeave | finish =>
    simp [IsMove] at hmv

end

structure Invariant (S : Setup n) (s : State n) : Prop where
  toLocal : LocalInvariant S s
  toLock : LockInvariant s
  toRequest : RequestInvariant S s

theorem Reached.invariant (h : Reached S s) : Invariant S s := by
  apply Runs.Reaches.invariant h (Invariant S)
  · exact ⟨.initial S, .initial S, .initial S⟩
  · intro s e s' hi he hn
    obtain rfl : next S s e = s' := Option.some.inj hn
    exact ⟨hi.toLocal.next he, hi.toLock.next he, hi.toRequest.next hi.toLocal hi.toLock he⟩

end TlbShootdown
