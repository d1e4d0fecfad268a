import OmniKV.Data.Keys
import OmniKV.Storage.Refinement

/-!
# Namespaces of the embedded handle

A handle with a namespace stores its keys behind a prefix made of the name and reads only keys that
have it. The validator accepts the separator that ends the prefix, so one prefix can begin another.
The sequence number that a write returns is left out of its reply.
-/

namespace OmniKV.Embedded

open List

inductive EmbeddedError
  | storage (message : String)
  | invalidNamespace (name : Bytes)
  | invalidKey (message : String)
deriving DecidableEq

def EmbeddedError.ofOmniError (err : OmniError) : EmbeddedError := .storage err.text

def prefixOf (name : Bytes) : Bytes := .ofString "__omnikv_ns:" ++ (name ++ [58])

def namespacePrefix (ns : Option Bytes) : Option Bytes := ns.map prefixOf

def storageKey (ns : Option Bytes) (key : Bytes) : Except EmbeddedError Bytes :=
  if key.isEmpty then .error (.invalidKey "key must not be empty")
  else match namespacePrefix ns with
    | some lead => .ok (lead ++ key)
    | none => .ok key

inductive EmbeddedWrite
  | put (key value : Bytes)
  | putWithTtl (key value : Bytes) (ttlSecs : UInt64)
  | delete (key : Bytes)

/-- What a call returns, and the engine after it. -/
abbrev Answer (α : Type) := Except EmbeddedError α × Engine

section

variable (ns : Option Bytes) (now : UInt64)

def stage (batch : WriteBatch) : EmbeddedWrite → Except EmbeddedError WriteBatch
  | .put key value => do (batch.set (← storageKey ns key) value).mapError .ofOmniError
  | .putWithTtl key value ttlSecs => do
      (batch.setWithTtl (← storageKey ns key) value ttlSecs now).mapError .ofOmniError
  | .delete key => do (batch.delete (← storageKey ns key)).mapError .ofOmniError

variable [External]

def writeBatch (operations : List EmbeddedWrite) (e : Engine) : Answer Unit :=
  match operations.foldlM (stage ns now) .new with
  | .error err => (.error err, e)
  | .ok batch =>
    match e.commitBatchLocal batch with
    | .error err => (.error (.ofOmniError err), e)
    | .ok (e', _) => (.ok (), e')

def put (key value : Bytes) : Engine → Answer Unit := writeBatch ns now [.put key value]

def putWithTtl (key value : Bytes) (ttlSecs : UInt64) : Engine → Answer Unit :=
  writeBatch ns now [.putWithTtl key value ttlSecs]

def delete (key : Bytes) : Engine → Answer Unit := writeBatch ns now [.delete key]

/-- A read under the storage key of a key. -/
def withKey {α : Type} (key : Bytes) (read : Bytes → Engine → Answer α) : Engine → Answer α :=
  match storageKey ns key with
  | .error err => fun e => (.error err, e)
  | .ok k => read k

def get (key : Bytes) : Engine → Answer (Option Bytes) :=
  withKey ns key fun k e =>
    let found := e.find k e.getSeq now
    (found.1.mapError .ofOmniError, found.2)

def stripPrefix (lead key : Bytes) : Option Bytes :=
  if lead <+: key then some (key.drop lead.length) else none

/-- The loop over the scanned entries; the limit is checked after each of them. -/
def collectRows (lead : Option Bytes) (limit : Option ℕ) :
    List (Bytes × Bytes) → List (Bytes × Bytes) → List (Bytes × Bytes)
  | [], rows => rows
  | (key, value) :: rest, rows =>
    let rows := match lead with
      | some lead => rows ++ ((stripPrefix lead key).map fun stripped => (stripped, value)).toList
      | none => rows ++ [(key, value)]
    if limit.any fun limit => rows.length ≥ limit then rows else collectRows lead limit rest rows

variable (limit : Option ℕ)

def scanRawRange (start stop : Bytes) (e : Engine) : Answer (List (Bytes × Bytes)) :=
  let scanned := e.scan start stop e.getSeq now
  ((scanned.1.mapError .ofOmniError).map (collectRows (namespacePrefix ns) limit · []), scanned.2)

/-- The last code point, in UTF-8. -/
def rangeEndSentinel : Bytes := [244, 143, 191, 191]

def scan (start stop : Bytes) : Engine → Answer (List (Bytes × Bytes)) :=
  withKey ns start fun rawStart => withKey ns stop fun rawStop =>
    scanRawRange ns now limit rawStart rawStop

def scanPrefix (lead : Bytes) : Engine → Answer (List (Bytes × Bytes)) :=
  withKey ns lead fun rawStart => scanRawRange ns now limit rawStart (rawStart ++ rangeEndSentinel)

def scanAll : Engine → Answer (List (Bytes × Bytes)) :=
  match namespacePrefix ns with
  | some lead => scanRawRange ns now limit lead (lead ++ rangeEndSentinel)
  | none => scanRawRange ns now limit [] rangeEndSentinel

end

inductive Operation
  | put (key value : Bytes)
  | putWithTtl (key value : Bytes) (ttlSecs : UInt64)
  | delete (key : Bytes)
  | writeBatch (operations : List EmbeddedWrite)
  | get (key : Bytes)
  | scan (start stop : Bytes) (limit : Option ℕ)
  | scanPrefix (lead : Bytes) (limit : Option ℕ)
  | scanAll (limit : Option ℕ)

inductive Reply
  | done
  | value (found : Option Bytes)
  | rows (rows : List (Bytes × Bytes))
  | failed (err : EmbeddedError)
deriving DecidableEq

def Reply.of {α : Type} (reply : α → Reply) (answer : Answer α) : Reply × Engine :=
  (match answer.1 with
    | .ok result => reply result
    | .error err => .failed err, answer.2)

def Operation.writes : Operation → Option (List EmbeddedWrite)
  | .put key value => some [.put key value]
  | .putWithTtl key value ttlSecs => some [.putWithTtl key value ttlSecs]
  | .delete key => some [.delete key]
  | .writeBatch operations => some operations
  | _ => none

section

variable (ns : Option Bytes) (now : UInt64)

/-- The batch that a call stages. -/
def Operation.batch? (operation : Operation) : Option WriteBatch :=
  operation.writes.bind fun writes => (writes.foldlM (stage ns now) .new).toOption

variable [External]

def execute (e : Engine) : Operation → Reply × Engine
  | .put key value => Reply.of (fun _ => .done) (put ns now key value e)
  | .putWithTtl key value ttlSecs =>
    Reply.of (fun _ => .done) (putWithTtl ns now key value ttlSecs e)
  | .delete key => Reply.of (fun _ => .done) (delete ns now key e)
  | .writeBatch operations => Reply.of (fun _ => .done) (writeBatch ns now operations e)
  | .get key => Reply.of .value (get ns now key e)
  | .scan start stop limit => Reply.of .rows (scan ns now limit start stop e)
  | .scanPrefix lead limit => Reply.of .rows (scanPrefix ns now limit lead e)
  | .scanAll limit => Reply.of .rows (scanAll ns now limit e)

def run : List (UInt64 × Operation) → Engine → List Reply × Engine
  | [], e => ([], e)
  | (now, operation) :: rest, e =>
    let (reply, e) := execute ns now e operation
    let (replies, e) := run rest e
    (reply :: replies, e)

end

variable {k name other : Bytes}

theorem storageKey_some {key : Bytes} : storageKey (some name) key = .ok k ↔ key ≠ [] ∧
    k = prefixOf name ++ key := by
  rw [storageKey]
  split_ifs with empty
  · simp [isEmpty_iff.mp empty]
  · have filled : key ≠ [] := fun nil => empty (by rw [nil]; rfl)
    simp only [namespacePrefix, Option.map_some, Except.ok.injEq]
    exact ⟨fun same => ⟨filled, same.symm⟩, fun h => h.2.symm⟩

section

variable {name : Bytes} {now : UInt64}

def Behind (lead : Bytes) (tx : WriteBatch) : Prop :=
  (∀ w ∈ tx.bufferedWrites, lead <+: w.key) ∧ ∀ key ∈ tx.bufferedDeletes, lead <+: key

theorem Behind.stage {batch batch' : WriteBatch} {operation : EmbeddedWrite}
    (behind : Behind (prefixOf name) batch)
    (staged : stage (some name) now batch operation = .ok batch') :
    Behind (prefixOf name) batch' := by
  have set : ∀ key k value expiry, storageKey (some name) key = .ok k →
      batch.setWithExpiry k value expiry = .ok batch' → Behind (prefixOf name) batch' := by
    intro key k value expiry named done
    obtain ⟨sets, deletes⟩ := WriteBatch.setWithExpiry_eq_ok done
    refine ⟨fun w member => ?_, fun d member => behind.2 d (deletes ▸ member)⟩
    rw [sets] at member
    obtain old | new := mem_append.mp member
    · exact behind.1 w old
    · rw [mem_singleton.mp new, (storageKey_some.mp named).2]
      exact prefix_append _ _
  cases operation with
  | put key value =>
    obtain ⟨k, named, done⟩ := Except.bind_eq_ok staged
    exact set key k value 0 named (Except.mapError_eq_ok done)
  | putWithTtl key value ttlSecs =>
    obtain ⟨k, named, done⟩ := Except.bind_eq_ok staged
    exact set key k value _ named (Except.mapError_eq_ok done)
  | delete key =>
    obtain ⟨k, named, done⟩ := Except.bind_eq_ok staged
    obtain ⟨sets, deletes⟩ := WriteBatch.delete_eq_ok (Except.mapError_eq_ok done)
    refine ⟨fun w member => behind.1 w (sets ▸ member), fun d member => ?_⟩
    rw [deletes] at member
    obtain old | new := mem_append.mp member
    · exact behind.2 d old
    · rw [mem_singleton.mp new, (storageKey_some.mp named).2]
      exact prefix_append _ _

/-- A batch has no effect on a key that it does not name. -/
theorem Behind.effect {lead key : Bytes} {tx : WriteBatch} (behind : Behind lead tx)
    (outside : ¬lead <+: key) (state : KvState) : tx.effect now state key = state key := by
  have absent : (tx.ops.reverse.find? fun op => op.1 = key) = none := by
    rw [WriteBatch.find?_reverse_ops, if_neg fun member => outside (behind.2 key member),
      WriteBatch.lastSet?_eq_none_iff.mpr fun w member same => outside
        (by rw [← same]; exact behind.1 w member)]
    rfl
  rw [WriteBatch.effect, absent]

variable [External] {e e' : Engine} {lead : Bytes}

/-- Writes are refused until tables are compacted. -/
def Stalled (e : Engine) : Prop := e.l0WriteStallThreshold ≤ e.roots.sstables.length
deriving Decidable

/-- The engine after a call shows what the staged batch, if there is one, makes of the data. -/
structure Stored (tx : Option WriteBatch) (e e' : Engine) : Prop where
  settled : e'.Settled
  current : ∀ t, e'.current t = tx.elim (e.current t) (WriteBatch.effect · t (e.current t))
  stalled : Stalled e' ↔ Stalled e

variable {operation : Operation}

end

/-- The storage keys of a namespace. -/
def KeyOf (name k : Bytes) : Prop := ∃ key, storageKey (some name) key = .ok k

section

variable [External]

end

def Unambiguous (name other : Bytes) : Prop :=
  ∀ a ∈ [name, other], ∀ b ∈ [name, other], ∀ key key' k,
    storageKey (some a) key = .ok k → storageKey (some b) key' = .ok k → a = b ∧ key = key'

/-- Neither name, followed by a colon, is the beginning of the other. -/
def Apart (name other : Bytes) : Prop := ¬name ++ [58] <+: other ∧ ¬other ++ [58] <+: name
deriving Decidable

theorem keyOf_iff : KeyOf name k ↔ ∃ key ≠ [], k = prefixOf name ++ key := by
  simp only [KeyOf, storageKey_some]

theorem prefixOf_prefix_iff (different : name ≠ other) :
    prefixOf name <+: prefixOf other ↔ name ++ [58] <+: other := by
  rw [prefixOf, prefixOf, prefix_append_right_inj, prefix_concat_iff]
  constructor
  · rintro (same | inside)
    · exact absurd (append_inj_left' same rfl) different
    · exact inside
  · exact .inr

/-- A key of one namespace is behind the prefix of the other only if one prefix begins the other. -/
theorem Apart.outside (apart : Apart name other) (different : name ≠ other)
    (key : KeyOf other k) : ¬prefixOf name <+: k := by
  obtain ⟨rest, -, rfl⟩ := keyOf_iff.mp key
  intro inside
  obtain first | second := prefix_or_prefix_of_prefix inside (prefix_append _ _)
  · exact apart.1 ((prefixOf_prefix_iff different).mp first)
  · exact apart.2 ((prefixOf_prefix_iff different.symm).mp second)

section

variable [External] {e : Engine}

end

end OmniKV.Embedded
