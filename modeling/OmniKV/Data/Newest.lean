import Mathlib.Data.Set.Lattice
import Mathlib.Order.Nat
import Mathlib.Data.Set.Finite.Basic

/-!
# Multi-version collections

A reader at `s` is entitled to the newest version of a key up to `s`. The first of several tiers
that answers is right when no tier hides a newer version below it. Versions that no reader at or
above a retention floor asks for may be dropped.
-/

class Versioned (α : Type*) (K : outParam Type*) where
  key : α → K
  seq : α → ℕ

namespace Versioned

open List

variable {α K : Type*} [Versioned α K]

/-- `a` is the newest version of `k` in `S` that a reader at sequence `s` may see. -/
structure IsNewest (S : Set α) (k : K) (s : ℕ) (a : α) : Prop where
  mem : a ∈ S
  key_eq : key a = k
  seq_le : seq a ≤ s
  max : ∀ b ∈ S, key b = k → seq b ≤ s → seq b ≤ seq a

/-- A key and a sequence determine the version. -/
def Unambiguous (S : Set α) : Prop :=
  ∀ a ∈ S, ∀ b ∈ S, key a = key b → seq a = seq b → a = b

/-- Every version of `newer` is newer than every version of `older`. -/
def Newer (newer older : Set α) : Prop := ∀ a ∈ newer, ∀ b ∈ older, seq b < seq a

/-- Tiers in search order, below tiers that hold the versions `above`. No tier hides a newer version
of a key. -/
def Layered : Set α → List (Set α) → Prop
  | _, [] => True
  | above, t :: rest =>
    (∀ u ∈ rest, ∀ a ∈ t, ∀ b ∈ u, key a = key b → seq a < seq b → b ∈ t ∨ b ∈ above) ∧
      Layered (above ∪ t) rest

def union (tiers : List (Set α)) : Set α := {a | ∃ t ∈ tiers, a ∈ t}

/-- `find` answers every point read of `S` with the newest visible version. -/
structure Finds (find : K → ℕ → Option α) (S : Set α) : Prop where
  newest : ∀ {k s a}, find k s = some a → IsNewest S k s a
  absent : ∀ {k s}, find k s = none → ∀ a ∈ S, key a = k → s < seq a

variable {S T : Set α} {k : K} {s : ℕ} {a b : α}

theorem Unambiguous.mono (unambiguous : Unambiguous S) (sub : T ⊆ S) : Unambiguous T :=
  fun a ha b hb => unambiguous a (sub ha) b (sub hb)

theorem IsNewest.eq (unambiguous : Unambiguous S) (ha : IsNewest S k s a) (hb : IsNewest S k s b) :
    a = b := by
  refine unambiguous a ha.mem b hb.mem (ha.key_eq.trans hb.key_eq.symm) (le_antisymm ?_ ?_)
  · exact hb.max a ha.mem ha.key_eq ha.seq_le
  · exact ha.max b hb.mem hb.key_eq hb.seq_le

/-- A newest version stays newest in any part of the collection that keeps it. -/
theorem IsNewest.anti (newest : IsNewest S k s a) (sub : T ⊆ S) (kept : a ∈ T) :
    IsNewest T k s a where
  mem := kept
  key_eq := newest.key_eq
  seq_le := newest.seq_le
  max b hb := newest.max b (sub hb)

/-- Versions that the reader cannot see change nothing. -/
theorem IsNewest.mono (newest : IsNewest S k s a) (sub : S ⊆ T)
    (invisible : ∀ b ∈ T, key b = k → seq b ≤ s → b ∈ S) : IsNewest T k s a where
  mem := sub newest.mem
  key_eq := newest.key_eq
  seq_le := newest.seq_le
  max b hb hk hs := newest.max b (invisible b hb hk hs) hk hs

/-- A key with a visible version has a newest one. -/
theorem exists_isNewest (hb : b ∈ S) (hk : key b = k) (hs : seq b ≤ s) : ∃ a, IsNewest S k s a := by
  classical
  -- The sequences of visible versions are bounded by `s`, so one of them is greatest.
  let P : ℕ → Prop := fun n => ∃ a ∈ S, key a = k ∧ seq a = n
  obtain ⟨a, ha, hka, hsa⟩ : P (Nat.findGreatest P s) :=
    Nat.findGreatest_spec (P := P) hs ⟨b, hb, hk, rfl⟩
  refine ⟨a, ha, hka, hsa ▸ Nat.findGreatest_le s, fun c hc hkc hsc => ?_⟩
  rw [hsa]
  exact Nat.le_findGreatest hsc ⟨c, hc, hkc, rfl⟩

theorem Finds.eq_some_iff {find : K → ℕ → Option α} (finds : Finds find S)
    (unambiguous : Unambiguous S) : find k s = some a ↔ IsNewest S k s a := by
  constructor
  · exact finds.newest
  · intro newest
    cases found : find k s with
    | none =>
      exact absurd newest.seq_le (not_le.mpr (finds.absent found a newest.mem newest.key_eq))
    | some b => rw [(finds.newest found).eq unambiguous newest]

/-- Ask the lookups in order; the first answer wins. -/
def firstHit (finds : List (K → ℕ → Option α)) (k : K) (s : ℕ) : Option α :=
  finds.findSome? fun find => find k s

theorem mem_union_cons {t : Set α} {rest : List (Set α)} :
    a ∈ union (t :: rest) ↔ a ∈ t ∨ a ∈ union rest := by
  simp [union]

/-- A search for a key and a sequence at which nothing above is visible. -/
theorem firstHit_spec {tiers : List ((K → ℕ → Option α) × Set α)} {above : Set α}
    (each : ∀ t ∈ tiers, Finds t.1 t.2) (layered : Layered above (tiers.map Prod.snd))
    (hidden : ∀ b ∈ above, key b = k → s < seq b) :
    (∀ a, firstHit (tiers.map Prod.fst) k s = some a →
      IsNewest (union (tiers.map Prod.snd)) k s a) ∧
      (firstHit (tiers.map Prod.fst) k s = none →
      ∀ a ∈ union (tiers.map Prod.snd), key a = k → s < seq a) := by
  induction tiers generalizing above with
  | nil => simp [firstHit, union]
  | cons t rest ih =>
    obtain ⟨below, tail⟩ := layered
    have head := each t mem_cons_self
    simp only [firstHit, map_cons, findSome?_cons]
    cases hit : t.1 k s with
    | some b =>
      have newest := head.newest hit
      refine ⟨fun a found => ?_, nofun⟩
      obtain rfl : b = a := Option.some.inj found
      refine ⟨mem_union_cons.mpr (.inl newest.mem), newest.key_eq, newest.seq_le, ?_⟩
      intro c hc hkc hsc
      by_contra exceeds
      -- A larger visible version in a lower tier would be in `t` as well, or above it.
      have inHead : c ∈ t.2 := by
        obtain here | ⟨u, hu, hcu⟩ := mem_union_cons.mp hc
        · exact here
        · have same := newest.key_eq.trans hkc.symm
          apply (below u hu b newest.mem c hcu same (not_le.mp exceeds)).resolve_right
          intro high
          exact absurd hsc (not_le.mpr (hidden c high hkc))
      exact exceeds (newest.max c inHead hkc hsc)
    | none =>
      have unseen : ∀ b ∈ above ∪ t.2, key b = k → s < seq b := by
        intro b hb hkb
        obtain high | here := hb
        · exact hidden b high hkb
        · exact head.absent hit b here hkb
      obtain ⟨some, none⟩ := ih (fun u hu => each u (mem_cons_of_mem t hu)) tail unseen
      constructor
      · intro a found
        apply (some a found).mono (fun c hc => mem_union_cons.mpr (.inr hc))
        intro c hc hkc hsc
        apply (mem_union_cons.mp hc).resolve_left
        intro here
        exact absurd hsc (not_le.mpr (head.absent hit c here hkc))
      · intro found a ha hka
        obtain here | lower := mem_union_cons.mp ha
        · exact head.absent hit a here hka
        · exact none found a lower hka

/-- Layered tiers that are searched in order answer as one collection. -/
theorem finds_firstHit {tiers : List ((K → ℕ → Option α) × Set α)}
    (each : ∀ t ∈ tiers, Finds t.1 t.2) (layered : Layered ∅ (tiers.map Prod.snd)) :
    Finds (firstHit (tiers.map Prod.fst)) (union (tiers.map Prod.snd)) where
  newest found := (firstHit_spec each layered (by simp)).1 _ found
  absent missing := (firstHit_spec each layered (by simp)).2 missing

theorem layered_of_pairwise {tiers : List (Set α)} (ordered : tiers.Pairwise Newer)
    (above : Set α) : Layered above tiers := by
  induction tiers generalizing above with
  | nil => trivial
  | cons t rest ih =>
    obtain ⟨below, tail⟩ := pairwise_cons.mp ordered
    refine ⟨fun u hu a ha b hb _ exceeds => ?_, ih tail _⟩
    exact absurd (below u hu a ha b hb) exceeds.not_gt

/-- A tier may be there twice. -/
theorem layered_of_repeated {t : Set α} {rest : List (Set α)}
    (ordered : (t :: rest).Pairwise Newer) : Layered ∅ (t :: t :: rest) := by
  refine ⟨fun u hu a ha b hb _ exceeds => ?_, layered_of_pairwise ordered _⟩
  obtain same | lower := mem_cons.mp hu
  · exact .inl (same ▸ hb)
  · exact absurd ((pairwise_cons.mp ordered).1 u lower a ha b hb) exceeds.not_gt

theorem union_repeated (t : Set α) (rest : List (Set α)) :
    union (t :: t :: rest) = union (t :: rest) := by
  ext a
  rw [mem_union_cons, mem_union_cons, or_self_left]

theorem unambiguous_of_pairwise {tiers : List (Set α)} (each : ∀ t ∈ tiers, Unambiguous t)
    (ordered : tiers.Pairwise Newer) : Unambiguous (union tiers) := by
  induction tiers with
  | nil => simp [Unambiguous, union]
  | cons t rest ih =>
    obtain ⟨below, tail⟩ := pairwise_cons.mp ordered
    have apart : ∀ a ∈ t, ∀ b ∈ union rest, seq b < seq a := by
      rintro a ha b ⟨u, hu, hb⟩
      exact below u hu a ha b hb
    intro a ha b hb hkey hseq
    obtain inA | lowA := mem_union_cons.mp ha
    · obtain inB | lowB := mem_union_cons.mp hb
      · exact each t mem_cons_self a inA b inB hkey hseq
      · exact absurd hseq (apart a inA b lowB).ne'
    · obtain inB | lowB := mem_union_cons.mp hb
      · exact absurd hseq (apart b inB a lowA).ne
      · exact ih (fun u hu => each u (mem_cons_of_mem t hu)) tail a lowA b lowB hkey hseq

/-- Consecutive tiers may be replaced by one that has part of their versions. -/
theorem pairwise_newer_merge {upper merged lower : List (Set α)} {S : Set α}
    (ordered : (upper ++ (merged ++ lower)).Pairwise Newer) (sub : S ⊆ union merged) :
    (upper ++ S :: lower).Pairwise Newer := by
  obtain ⟨inUpper, rest, across⟩ := pairwise_append.mp ordered
  obtain ⟨-, inLower, down⟩ := pairwise_append.mp rest
  refine pairwise_append.mpr ⟨inUpper, pairwise_cons.mpr ⟨?_, inLower⟩, ?_⟩
  · intro u hu a ha b hb
    obtain ⟨t, ht, inTier⟩ := sub ha
    exact down t ht u hu a inTier b hb
  · intro t ht u hu a ha b hb
    obtain new | old := mem_cons.mp hu
    · obtain ⟨t', ht', inTier⟩ := sub (new ▸ hb)
      exact across t ht t' (mem_append_left _ ht') a ha b inTier
    · exact across t ht u (mem_append_right _ old) a ha b hb

/-- `top` is the greatest sequence number of `k` that a reader at `s` may see. -/
structure IsTop (S : Set α) (k : K) (s : ℕ) (top : Option ℕ) : Prop where
  reached : ∀ n, top = some n → ∃ a ∈ S, key a = k ∧ seq a ≤ s ∧ seq a = n
  bound : ∀ a ∈ S, key a = k → seq a ≤ s → seq a ≤ top.getD 0

theorem IsTop.eq_of_isNewest {top : Option ℕ} (isTop : IsTop S k s top)
    (newest : IsNewest S k s a) : top.getD 0 = seq a := by
  have le := isTop.bound a newest.mem newest.key_eq newest.seq_le
  cases top with
  | none => exact Nat.le_antisymm (Nat.zero_le _) le
  | some n =>
    obtain ⟨b, hb, hk, hs, rfl⟩ := isTop.reached n rfl
    exact Nat.le_antisymm (newest.max b hb hk hs) le

theorem IsTop.eq_zero {top : Option ℕ} (isTop : IsTop S k s top) (hidden : ∀ a ∈ S, key a = k →
    s < seq a) : top.getD 0 = 0 := by
  cases top with
  | none => rfl
  | some n =>
    obtain ⟨a, ha, hk, hs, -⟩ := isTop.reached n rfl
    exact absurd hs (Nat.not_le.mpr (hidden a ha hk))

/-- A lookup finds the version with the greatest number. -/
theorem Finds.isTop {find : K → ℕ → Option α} (finds : Finds find S) (k : K) (s : ℕ) :
    IsTop S k s ((find k s).map seq) := by
  constructor
  · intro n found
    obtain ⟨a, hit, rfl⟩ := Option.map_eq_some_iff.mp found
    have newest := finds.newest hit
    exact ⟨a, newest.mem, newest.key_eq, newest.seq_le, rfl⟩
  · intro a ha hk hs
    cases hit : find k s with
    | none => exact absurd hs (Nat.not_le.mpr (finds.absent hit a ha hk))
    | some b => exact (finds.newest hit).max a ha hk hs

/-- The first tier with a number has the greatest one, if every tier is newer than those below it.
-/
theorem isTop_findSome {tiers : List (Option ℕ × Set α)} (each : ∀ t ∈ tiers, IsTop t.2 k s t.1)
    (ordered : (tiers.map Prod.snd).Pairwise Newer) :
    IsTop (union (tiers.map Prod.snd)) k s (tiers.findSome? Prod.fst) := by
  induction tiers with
  | nil => exact ⟨nofun, by simp [union]⟩
  | cons t rest ih =>
    obtain ⟨below, tail⟩ := pairwise_cons.mp ordered
    have head := each t mem_cons_self
    have lower := ih (fun u hu => each u (mem_cons_of_mem t hu)) tail
    rw [findSome?_cons]
    cases hit : t.1 with
    | some n =>
      obtain ⟨b, hb, hkb, hsb, rfl⟩ := head.reached n hit
      refine ⟨?_, fun a ha hk hs => ?_⟩
      · rintro _ ⟨⟩
        exact ⟨b, mem_union_cons.mpr (.inl hb), hkb, hsb, rfl⟩
      · obtain here | ⟨u, hu, hau⟩ := mem_union_cons.mp ha
        · have le := head.bound a here hk hs
          rwa [hit] at le
        · exact (below u hu b hb a hau).le
    | none =>
      refine ⟨fun n found => ?_, fun a ha hk hs => ?_⟩
      · obtain ⟨a, ha, rest⟩ := lower.reached n found
        exact ⟨a, mem_union_cons.mpr (.inr ha), rest⟩
      · obtain here | there := mem_union_cons.mp ha
        · have le := head.bound a here hk hs
          rw [hit] at le
          exact Nat.le_trans le (Nat.zero_le _)
        · exact lower.bound a there hk hs

/-- Whether a version must outlive a compaction with retention floor `floor`. -/
structure Needed (S : Set α) (floor : Option ℕ) (a : α) : Prop where
  mem : a ∈ S
  rule : (∀ b ∈ S, key b = key a → seq b ≤ seq a) ∨ ∃ f, floor = some f ∧
    (f ≤ seq a ∨ IsNewest S (key a) f a)

variable {floor : Option ℕ} {L U : Set α}

/-- A reader at or above the floor, or above every version, sees a needed version. -/
theorem IsNewest.needed (newest : IsNewest S k s a)
    (entitled : (∀ b ∈ S, key b = k → seq b ≤ s) ∨ ∃ f, floor = some f ∧ f ≤ s) :
    Needed S floor a := by
  refine ⟨newest.mem, ?_⟩
  obtain top | ⟨f, hf, above⟩ := entitled
  · left
    intro b hb hk
    have hk := hk.trans newest.key_eq
    exact newest.max b hb hk (top b hb hk)
  · right
    refine ⟨f, hf, ?_⟩
    by_cases atLeast : f ≤ seq a
    · exact .inl atLeast
    · refine .inr ⟨newest.mem, rfl, (not_le.mp atLeast).le, fun b hb hk hs => ?_⟩
      exact newest.max b hb (hk.trans newest.key_eq) (hs.trans above)

/-- Readers at or above the floor, and those that see every version. -/
def Covered (S : Set α) (floor : Option ℕ) (s : ℕ) : Prop :=
  (∃ f, floor = some f ∧ f ≤ s) ∨ ∀ a ∈ S, seq a ≤ s

/-- Dropping what is not needed of a part of the collection changes no newest version. -/
theorem isNewest_union_needed (covered : Covered (U ∪ L) floor s) :
    IsNewest (U ∪ {b | Needed L floor b}) k s a ↔ IsNewest (U ∪ L) k s a := by
  have sub : U ∪ {b | Needed L floor b} ⊆ U ∪ L := Set.union_subset_union_right U fun b hb => hb.mem
  have kept : ∀ {c}, IsNewest (U ∪ L) k s c → c ∈ U ∪ {b | Needed L floor b} := by
    intro c newest
    obtain upper | lower := newest.mem
    · exact .inl upper
    · refine .inr ((newest.anti Set.subset_union_right lower).needed ?_)
      exact covered.symm.imp_left fun top b hb _ => top b (.inr hb)
  constructor
  · intro newest
    refine ⟨sub newest.mem, newest.key_eq, newest.seq_le, fun b hb hkb hsb => ?_⟩
    -- The newest of all versions was kept, so it is not above `a`.
    obtain ⟨c, top⟩ := exists_isNewest hb hkb hsb
    have below := newest.max c (kept top) top.key_eq top.seq_le
    exact (top.max b hb hkb hsb).trans below
  · intro newest
    exact newest.anti sub (kept newest)

theorem needed_none : Needed S none a ↔ a ∈ S ∧ ∀ b ∈ S, key b = key a → seq b ≤ seq a := by
  constructor
  · rintro ⟨mem, latest | ⟨f, hf, -⟩⟩
    · exact ⟨mem, latest⟩
    · cases hf
  · rintro ⟨mem, latest⟩
    exact ⟨mem, .inl latest⟩

/-- Without a floor dead versions may go as well, unless one is all that hides an older version in
the other part. -/
theorem isNewest_union_live {dead : α → Prop} (top : ∀ b ∈ U ∪ L, seq b ≤ s)
    (shown : Needed U none a → ∀ w, Needed L none w → key w = key a → dead w → seq w ≤ seq a)
    (live : ¬dead a) : IsNewest (U ∪ {b | Needed L none b ∧ ¬dead b}) k s a ↔
    IsNewest (U ∪ L) k s a := by
  have sub : U ∪ {b | Needed L none b ∧ ¬dead b} ⊆ U ∪ L :=
    Set.union_subset_union_right U fun b hb => hb.1.mem
  have needed : ∀ {c}, IsNewest (U ∪ L) k s c → c ∈ L → Needed L none c := by
    intro c newest lower
    refine (newest.anti Set.subset_union_right lower).needed ?_
    exact .inl fun b hb _ => top b (.inr hb)
  have kept : ∀ {c}, IsNewest (U ∪ L) k s c → ¬dead c →
      c ∈ U ∪ {b | Needed L none b ∧ ¬dead b} := by
    intro c newest alive
    obtain upper | lower := newest.mem
    · exact .inl upper
    · exact .inr ⟨needed newest lower, alive⟩
  constructor
  · intro newest
    refine ⟨sub newest.mem, newest.key_eq, newest.seq_le, fun b hb hkb hsb => ?_⟩
    obtain ⟨c, greatest⟩ := exists_isNewest hb hkb hsb
    refine (greatest.max b hb hkb hsb).trans ?_
    by_cases gone : dead c
    · obtain upper | lower := greatest.mem
      · exact newest.max c (.inl upper) greatest.key_eq greatest.seq_le
      · have same := greatest.key_eq.trans newest.key_eq.symm
        obtain above | below := newest.mem
        · refine shown (needed_none.mpr ⟨above, fun d hd hkd => ?_⟩) c (needed greatest lower) same
            gone
          exact newest.max d (.inl hd) (hkd.trans newest.key_eq) (top d (.inl hd))
        · exact (needed_none.mp below.1).2 c lower same
    · exact newest.max c (kept greatest gone) greatest.key_eq greatest.seq_le
  · intro newest
    exact newest.anti sub (kept newest live)

/-- In a whole collection nothing older is left to show when a dead version goes. -/
theorem isNewest_of_kept {dead : α → Prop} (covered : Covered S floor s)
    (newest : IsNewest {b | Needed S floor b ∧ (dead b → floor.isSome)} k s a) :
    IsNewest S k s a := by
  refine ⟨newest.mem.1.mem, newest.key_eq, newest.seq_le, fun b hb hk visible => ?_⟩
  cases floor with
  | none => exact (needed_none.mp newest.mem.1).2 b hb (hk.trans newest.key_eq.symm)
  | some f =>
    obtain ⟨c, greatest⟩ := exists_isNewest hb hk visible
    have kept : Needed S (some f) c := greatest.needed (covered.symm.imp_left fun top b hb _ =>
      top b hb)
    exact (greatest.max b hb hk visible).trans (newest.max c ⟨kept, fun _ => rfl⟩ greatest.key_eq
      greatest.seq_le)

/-- Every version of `S` has a counterpart in `T` with its key and its sequence. -/
theorem IsNewest.of_rel {T : Set α} {R : α → α → Prop} {b : α} (newest : IsNewest T k s b)
    (same : ∀ {c d}, R c d → key c = key d ∧ seq c = seq d) (into : ∀ c ∈ S, ∃ d ∈ T, R c d)
    (mem : a ∈ S) (related : R a b) : IsNewest S k s a := by
  obtain ⟨hk, hs⟩ := same related
  refine ⟨mem, hk.trans newest.key_eq, hs ▸ newest.seq_le, fun c hc hkc visible => ?_⟩
  obtain ⟨d, hd, rel⟩ := into c hc
  obtain ⟨hkd, hsd⟩ := same rel
  rw [hs, hsd]
  exact newest.max d hd (hkd ▸ hkc) (hsd ▸ visible)

/-- The older version shows when the dead one goes. -/
theorem isNewest_union_of_dead (dead : α → Prop) {w : α} (distinct : Unambiguous L)
    (top : ∀ b ∈ U ∪ L, seq b ≤ s) (latest : Needed U none a) (latest' : Needed L none w)
    (same : key w = key a) (gone : dead w) :
    IsNewest (U ∪ {b | Needed L none b ∧ ¬dead b}) (key a) s a := by
  refine ⟨.inl latest.mem, rfl, top a (.inl latest.mem), fun b hb hkb _ => ?_⟩
  obtain upper | lower := hb
  · exact (needed_none.mp latest).2 b upper hkb
  · -- A key has one latest version, so `b` is the dead one.
    have hk : key b = key w := hkb.trans same.symm
    have le := (needed_none.mp lower.1).2 w latest'.mem hk.symm
    have ge := (needed_none.mp latest').2 b lower.1.mem hk
    have eq := distinct b lower.1.mem w latest'.mem hk (le_antisymm ge le)
    exact absurd (eq ▸ gone) lower.2

end Versioned
