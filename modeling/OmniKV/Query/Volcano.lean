import OmniKV.Query.Parser

/-!
# Row iterators

Filters and limits hand on chunks of rows that their child has filled. A chunk of a filter is filled
by as many chunks of the child as it takes.
-/

namespace OmniKV.Volcano

open List Parse

variable {ρ σ : Type}

/-- `next_row` and, with the flag, `try_next_row` where no error occurs. The loops run until an
iterator is exhausted; `rows` are the rows to come and bound the turns. -/
structure RowIterator (ρ σ : Type) where
  nextRow : Bool → σ → Option ρ × σ
  nextChunk : ℕ → σ → List ρ × σ
  rows : σ → List ρ

/-- Fill up to `n` rows with what `keep` leaves of the results of calls, until one is empty. -/
def fill (call : ℕ → σ → List ρ × σ) (keep : ρ → Bool) : ℕ → ℕ → σ → List ρ × σ
  | 0, _, s => ([], s)
  | turns + 1, n, s =>
    if n = 0 then ([], s)
    else if (call n s).1 = [] then ([], (call n s).2)
    else
      let kept := (call n s).1.filter keep
      let rest := fill call keep turns (n - kept.length) (call n s).2
      (kept ++ rest.1, rest.2)

def rowCall (next : σ → Option ρ × σ) (_ : ℕ) (s : σ) : List ρ × σ :=
  ((next s).1.toList, (next s).2)

/-- `SeqScanIter`, `SortIter` and `AggregateIter`: the rows from the position on. -/
def buffered : RowIterator ρ (List ρ) where
  nextRow _ rows := (rows.head?, rows.tail)
  nextChunk n rows := (rows.take n, rows.drop n)
  rows := id

/-- `PkLookupIter`, with whether it was consumed. -/
def pkLookup : RowIterator ρ (Option ρ × Bool) where
  nextRow _ s := if s.2 then (none, s) else (s.1, s.1, true)
  nextChunk n s := if n = 0 ∨ s.2 then ([], s) else (s.1.toList, s.1, true)
  rows s := if s.2 then [] else s.1.toList

def filterIter (keep : ρ → Bool) (child : RowIterator ρ σ) : RowIterator ρ σ where
  nextRow flag s :=
    let result := fill (rowCall (child.nextRow flag)) keep ((child.rows s).length + 1) 1 s
    (result.1.head?, result.2)
  nextChunk n s := fill child.nextChunk keep ((child.rows s).length + 1) n s
  rows s := (child.rows s).filter keep

def projectIter (project : ρ → ρ) (child : RowIterator ρ σ) : RowIterator ρ σ where
  nextRow flag s := ((child.nextRow flag s).1.map project, (child.nextRow flag s).2)
  nextChunk n s := if n = 0 then ([], s) else
  ((child.nextChunk n s).1.map project, (child.nextChunk n s).2)
  rows s := (child.rows s).map project

/-- The state has the number of emitted rows. -/
def limitIter (limit : ℕ) (child : RowIterator ρ σ) : RowIterator ρ (σ × ℕ) where
  nextRow flag s :=
    if s.2 ≥ limit then (none, s)
    else
      let result := child.nextRow flag s.1
      (result.1, result.2, s.2 + result.1.toList.length)
  nextChunk n s :=
    if n = 0 ∨ s.2 ≥ limit then ([], s)
    else
      let result := child.nextChunk (min n (limit - s.2)) s.1
      (result.1, result.2, s.2 + result.1.length)
  rows s := (child.rows s.1).take (limit - s.2)

/-- The build side of a join and what is done with its rows. -/
structure HashJoin (ρ : Type) where
  joinType : JoinType
  hashTable : List (Bytes × List ρ)
  nullKeyBuildRows : List ρ
  probeKey : ρ → Option Bytes
  combine : ρ → ρ → ρ
  qualifyBuild : ρ → ρ
  qualifyProbe : ρ → ρ

namespace HashJoin

variable (j : HashJoin ρ)

/-- The rows for a row of the probe side, and the keys that were matched. -/
def matchRow (matched : List Bytes) (row : ρ) : List ρ × List Bytes :=
  match (j.probeKey row).bind fun key => (j.hashTable.lookup key).map (key, ·) with
  | some (key, build) =>
    (build.map (j.combine · row), if j.joinType = .right then key :: matched else matched)
  | none => (if j.joinType = .left then [j.qualifyProbe row] else [], matched)

def unmatched (matched : List Bytes) : List ρ :=
  if j.joinType = .right then
    ((j.hashTable.filter (·.1 ∉ matched)).flatMap (·.2) ++ j.nullKeyBuildRows).map j.qualifyBuild
  else []

def joined (matched : List Bytes) : List ρ → List ρ
  | [] => j.unmatched matched
  | row :: rows => (j.matchRow matched row).1 ++ joined (j.matchRow matched row).2 rows

end HashJoin

/-- `rightUnmatched` is there once the probe side is exhausted. -/
structure JoinState (ρ σ : Type) where
  probe : σ
  currentMatches : List ρ
  matchedBuildKeys : List Bytes
  rightUnmatched : Option (List ρ)

def joinNext (j : HashJoin ρ) (next : σ → Option ρ × σ) :
    ℕ → JoinState ρ σ → Option ρ × JoinState ρ σ
  | 0, s => (none, s)
  | turns + 1, s =>
    match s.currentMatches, s.rightUnmatched with
    | row :: rest, _ => (some row, { s with currentMatches := rest })
    | [], some [] => (none, s)
    | [], some (row :: rest) => (some row, { s with rightUnmatched := some rest })
    | [], none =>
      match next s.probe with
      | (none, probe) => joinNext j next turns ⟨probe, [], s.matchedBuildKeys,
        some (j.unmatched s.matchedBuildKeys)⟩
      | (some row, probe) =>
        let found := j.matchRow s.matchedBuildKeys row
        joinNext j next turns ⟨probe, found.1, found.2, none⟩

def joinRows (j : HashJoin ρ) (probe : RowIterator ρ σ) (s : JoinState ρ σ) : List ρ :=
  s.currentMatches ++ s.rightUnmatched.getD (j.joined s.matchedBuildKeys (probe.rows s.probe))

/-- `HashJoinIter` has the default `next_chunk`. -/
def hashJoinIter (j : HashJoin ρ) (probe : RowIterator ρ σ) : RowIterator ρ (JoinState ρ σ) :=
  let next flag s := joinNext j (probe.nextRow flag) ((probe.rows s.probe).length + 2) s
  { nextRow := next
    nextChunk := fun n s =>
    fill (rowCall (next false)) (fun _ => true) ((joinRows j probe s).length + 1) n s
    rows := joinRows j probe }

/-- The iterators that a plan is compiled to. -/
inductive Compiled {ρ : Type} : {σ : Type} → RowIterator ρ σ → Prop
  | buffered : Compiled buffered
  | pkLookup : Compiled pkLookup
  | filter {σ : Type} {child : RowIterator ρ σ} (keep : ρ → Bool) : Compiled child →
    Compiled (filterIter keep child)
  | project {σ : Type} {child : RowIterator ρ σ} (f : ρ → ρ) : Compiled child →
    Compiled (projectIter f child)
  | limit {σ : Type} {child : RowIterator ρ σ} (n : ℕ) : Compiled child →
    Compiled (limitIter n child)
  | hashJoin {σ : Type} {probe : RowIterator ρ σ} (j : HashJoin ρ) : Compiled probe →
    Compiled (hashJoinIter j probe)

/-- Chunks are of a positive size, `n + 1`. -/
inductive Call
  | nextRow
  | tryNextRow
  | nextChunk (n : ℕ)

def RowIterator.call (it : RowIterator ρ σ) : Call → σ → List ρ × σ
  | .nextRow => rowCall (it.nextRow false) 1
  | .tryNextRow => rowCall (it.nextRow true) 1
  | .nextChunk n => it.nextChunk (n + 1)

/-- The rows up to the first call that returns none, and whether there was one. -/
def RowIterator.run (it : RowIterator ρ σ) : List Call → σ → List ρ × Bool
  | [], _ => ([], false)
  | c :: calls, s =>
    if (it.call c s).1 = [] then ([], true)
    else ((it.call c s).1 ++ (it.run calls (it.call c s).2).1, (it.run calls (it.call c s).2).2)

/-- Repeated `next_row`. -/
def RowIterator.drain (it : RowIterator ρ σ) : ℕ → σ → List ρ
  | 0, _ => []
  | turns + 1, s =>
    match it.nextRow false s with
    | (none, _) => []
    | (some row, s) => row :: it.drain turns s

/-- The result of a call that asks for `n` rows: the next ones, and none only at the end. -/
def Takes (rows : σ → List ρ) (n : ℕ) (s : σ) (result : List ρ × σ) : Prop :=
  rows s = result.1 ++ rows result.2 ∧ result.1.length ≤ n ∧ (0 < n → result.1 = [] → rows s = [])

variable {rows : σ → List ρ} {call : ℕ → σ → List ρ × σ} {n turns : ℕ} {s : σ}

theorem takes_nil : Takes rows 0 s ([], s) := ⟨rfl, le_rfl, fun pos => absurd pos (lt_irrefl 0)⟩

theorem toList_head? {l : List ρ} (short : l.length ≤ 1) : l.head?.toList = l := by
  match l, short with
  | [], _ => rfl
  | [row], _ => rfl

theorem takes_fill (keep : ρ → Bool) (lawful : ∀ n s, 0 < n → Takes rows n s (call n s))
    (enough : (rows s).length < turns) :
    Takes (fun s => (rows s).filter keep) n s (fill call keep turns n s) := by
  induction turns generalizing n s with
  | zero => omega
  | succ turns ih =>
    rw [fill]
    by_cases none : n = 0
    · rw [if_pos none, none]
      exact takes_nil
    have pos := Nat.pos_of_ne_zero none
    obtain ⟨split, short, last⟩ := lawful n s pos
    rw [if_neg none]
    split_ifs with empty
    · have done := last pos empty
      rw [done, empty] at split
      have rest : rows (call n s).2 = [] := split.symm
      exact ⟨by simp [done, rest], Nat.zero_le n, fun _ _ => by simp [done]⟩
    · have lengths := congrArg length split
      rw [length_append] at lengths
      have first := length_pos_iff.mpr empty
      have kept := length_filter_le keep (call n s).1
      obtain ⟨split', short', last'⟩ := ih (n := n - ((call n s).1.filter keep).length)
        (s := (call n s).2) (by omega)
      refine ⟨?_, ?_, fun pos nothing => ?_⟩
      · simp only [split, filter_append, append_assoc]
        exact congrArg (_ ++ ·) split'
      · simp only [length_append]
        omega
      · obtain ⟨here, later⟩ := append_eq_nil_iff.mp nothing
        rw [here, length_nil, Nat.sub_zero] at last' later
        simp [split, here, last' pos later]

theorem Takes.mono {result : List ρ × σ} (taken : Takes rows 1 s result) (pos : 0 < n) :
    Takes rows n s result :=
  ⟨taken.1, taken.2.1.trans pos, fun _ => taken.2.2 one_pos⟩

theorem Takes.map {result : List ρ × σ} (taken : Takes rows n s result) (f : ρ → ρ) :
    Takes (fun s => (rows s).map f) n s (result.1.map f, result.2) := by
  obtain ⟨split, short, last⟩ := taken
  refine ⟨by simp [split], by simpa using short, fun pos nothing => ?_⟩
  exact congrArg (List.map f) (last pos (map_eq_nil_iff.mp nothing))

theorem Takes.limit {result : List ρ × σ} {limit emitted : ℕ}
    (taken : Takes rows (min n (limit - emitted)) s result)
    (more : emitted < limit) : Takes (fun s : σ × ℕ => (rows s.1).take (limit - s.2)) n (s, emitted)
      (result.1, result.2, emitted + result.1.length) := by
  obtain ⟨split, short, last⟩ := taken
  refine ⟨?_, short.trans (Nat.min_le_left ..), fun pos nothing => ?_⟩
  · simp only [split, take_append, take_of_length_le (short.trans (Nat.min_le_right ..)),
      Nat.sub_sub]
  · simp [last (by omega) nothing]

structure Lawful (it : RowIterator ρ σ) : Prop where
  nextRow : ∀ flag s, Takes it.rows 1 s (rowCall (it.nextRow flag) 1 s)
  nextChunk : ∀ n s, Takes it.rows n s (it.nextChunk n s)

theorem lawful_buffered : Lawful (buffered (ρ := ρ)) where
  nextRow _ rows := by cases rows <;> simp [Takes, rowCall, buffered]
  nextChunk n rows := by
    refine ⟨(take_append_drop n rows).symm, length_take_le n rows, fun pos nothing => ?_⟩
    exact (take_eq_nil_iff.mp nothing).resolve_left pos.ne'

theorem lawful_pkLookup : Lawful (pkLookup (ρ := ρ)) where
  nextRow _ s := by obtain ⟨_ | row, _ | _⟩ := s <;> simp [Takes, rowCall, pkLookup]
  nextChunk n s := by
    obtain _ | n := n
    · exact takes_nil
    · obtain ⟨_ | row, _ | _⟩ := s <;> simp [Takes, pkLookup]

variable {child : RowIterator ρ σ} (lawful : Lawful child)

include lawful

theorem Lawful.filter (keep : ρ → Bool) : Lawful (filterIter keep child) where
  nextRow flag s := by
    have taken := takes_fill (s := s) (n := 1) keep (fun n s pos =>
      (lawful.nextRow flag s).mono pos) (Nat.lt_succ_self _)
    -- At most one row is there, so its head is all of it.
    have one : ((filterIter keep child).nextRow flag s).1.toList = (fill _ _ _ 1 s).1 :=
      toList_head? taken.2.1
    rw [rowCall, one]
    exact taken
  nextChunk n s := takes_fill keep (fun n s _ => lawful.nextChunk n s) (Nat.lt_succ_self _)

theorem Lawful.project (f : ρ → ρ) : Lawful (projectIter f child) where
  nextRow flag s := by
    have taken := (lawful.nextRow flag s).map f
    rwa [rowCall, ← Option.toList_map] at taken
  nextChunk n s := by
    simp only [projectIter]
    split_ifs with none
    · rw [none]
      exact takes_nil
    · exact (lawful.nextChunk n s).map f

theorem Lawful.limit (limit : ℕ) : Lawful (limitIter limit child) where
  nextRow flag s := by
    simp only [limitIter, rowCall]
    split_ifs with reached
    · simp [Takes, Nat.sub_eq_zero_of_le reached]
    · have more := not_le.mp reached
      exact ((lawful.nextRow flag s.1).mono (n := min 1 (limit - s.2)) (by omega)).limit more
  nextChunk n s := by
    simp only [limitIter]
    split_ifs with stop
    · obtain none | reached := stop
      · rw [none]
        exact takes_nil
      · simp [Takes, Nat.sub_eq_zero_of_le reached]
    · exact Takes.limit (lawful.nextChunk _ s.1) (by omega)

theorem Lawful.joinNext (j : HashJoin ρ) (flag : Bool) {s : JoinState ρ σ}
    (enough : if s.rightUnmatched = none then (child.rows s.probe).length + 1 < turns else
    0 < turns) :
    Takes (joinRows j child) 1 s (rowCall (joinNext j (child.nextRow flag) turns) 1 s) := by
  induction turns generalizing s with
  | zero =>
    split_ifs at enough
    · omega
    · omega
  | succ turns ih =>
    obtain ⟨probe, _ | ⟨row, rest⟩, matched, _ | _ | ⟨row', rest'⟩⟩ := s
    · obtain ⟨split, -, last⟩ := lawful.nextRow flag probe
      simp only [rowCall, Volcano.joinNext] at split last ⊢
      generalize child.nextRow flag probe = result at split last ⊢
      simp only [if_true] at enough
      obtain ⟨_ | row, probe'⟩ := result
      · have same : joinRows j child ⟨probe, [], matched, none⟩ =
            joinRows j child ⟨probe', [], matched, some (j.unmatched matched)⟩ := by
          simp [joinRows, last one_pos rfl, HashJoin.joined]
        rw [Takes, same]
        exact ih (by simp; omega)
      · have same : joinRows j child ⟨probe, [], matched, none⟩ =
            joinRows j child ⟨probe', (j.matchRow matched row).1, (j.matchRow matched row).2,
            none⟩ := by
          simp [joinRows, split, HashJoin.joined]
        rw [Takes, same]
        refine ih ?_
        simp only [split, Option.toList_some, singleton_append, length_cons] at enough
        simpa using by omega
    all_goals simp [Takes, rowCall, Volcano.joinNext, joinRows]

theorem Lawful.hashJoin (j : HashJoin ρ) : Lawful (hashJoinIter j child) := by
  have next (flag : Bool) (s : JoinState ρ σ) : Takes (joinRows j child) 1 s (rowCall
      ((hashJoinIter j child).nextRow flag) 1 s) :=
    lawful.joinNext j flag (by split_ifs <;> omega)
  refine ⟨next, fun n s => ?_⟩
  have filled : Takes (fun s => (joinRows j child s).filter fun _ => true)
      n s ((hashJoinIter j child).nextChunk n s) :=
    takes_fill _ (fun n s pos => (next false s).mono pos) (Nat.lt_succ_self _)
  simp only [filter_true] at filled
  exact filled

omit lawful

variable {it : RowIterator ρ σ}

theorem lawful_of_compiled (compiled : Compiled it) : Lawful it := by
  induction compiled with
  | buffered => exact lawful_buffered
  | pkLookup => exact lawful_pkLookup
  | filter keep _ ih => exact ih.filter keep
  | project f _ ih => exact ih.project f
  | limit n _ ih => exact ih.limit n
  | hashJoin j _ ih => exact ih.hashJoin j

theorem Lawful.drain_eq (lawful : Lawful it) (enough : (it.rows s).length < turns) :
    it.drain turns s = it.rows s := by
  induction turns generalizing s with
  | zero => omega
  | succ turns ih =>
    obtain ⟨split, -, last⟩ := lawful.nextRow false s
    rw [RowIterator.drain]
    simp only [rowCall] at split last
    generalize it.nextRow false s = result at split last ⊢
    obtain ⟨_ | row, s'⟩ := result
    · exact (last one_pos rfl).symm
    · rw [split] at enough ⊢
      exact congrArg (row :: ·) (ih (by simpa using enough))

/-- A positive number of rows is asked for in every call. -/
theorem Lawful.takes_call (lawful : Lawful it) (c : Call) (s : σ) :
    ∃ n, 0 < n ∧ Takes it.rows n s (it.call c s) := by
  match c with
  | .nextRow => exact ⟨1, one_pos, lawful.nextRow false s⟩
  | .tryNextRow => exact ⟨1, one_pos, lawful.nextRow true s⟩
  | .nextChunk n => exact ⟨n + 1, n.succ_pos, lawful.nextChunk (n + 1) s⟩

theorem Lawful.run_leads (lawful : Lawful it) (calls : List Call) (s : σ) :
    (it.run calls s).1 <+: it.rows s ∧ ((it.run calls s).2 = true →
      (it.run calls s).1 = it.rows s) := by
  induction calls generalizing s with
  | nil => exact ⟨ nil_prefix, nofun⟩
  | cons c calls ih =>
    obtain ⟨n, pos, split, -, last⟩ := lawful.takes_call c s
    rw [RowIterator.run]
    split_ifs with nothing
    · exact ⟨ nil_prefix, fun _ => (last pos nothing).symm⟩
    · obtain ⟨lead, whole⟩ := ih (it.call c s).2
      rw [split]
      exact ⟨(prefix_append_right_inj _).mpr lead, fun ended => congrArg (_ ++ ·) (whole ended)⟩

/-- Any mix of calls returns the rows of repeated `next_row`, in order, and all of them when a call
returns none. -/
theorem mixed_calls_agree {ρ σ : Type} {it : RowIterator ρ σ} (compiled : Compiled it)
    (calls : List Call) (s : σ) : (it.run calls s).1 <+: it.drain ((it.rows s).length + 1) s ∧
      ((it.run calls s).2 = true → (it.run calls s).1 = it.drain ((it.rows s).length + 1) s) := by
  rw [(lawful_of_compiled compiled).drain_eq (Nat.lt_succ_self _)]
  exact (lawful_of_compiled compiled).run_leads calls s

theorem mixed_calls_agree_limited :
    let it := limitIter 2 (filterIter (fun row : ℕ => row ≠ 2) buffered)
    let start := ([1, 2, 3, 4], 0)
    let result := it.run [.nextChunk 4, .nextRow] start
    result = ([1, 3], true) ∧ (result.2 = true →
      result.1 = it.drain ((it.rows start).length + 1) start) := by
  intro it start result
  have compiled : Compiled it := .limit 2 (.filter _ .buffered)
  exact ⟨by decide, (mixed_calls_agree compiled _ start).2⟩

end OmniKV.Volcano
