import OmniKV.Transaction.History

/-!
# What Raft keeps

Log ids, votes, the metadata record and log entries, as `openraft` has them. The texts that
are stored for them are left out: a value stands for its text, which can be parsed back.
-/

namespace OmniKV

/-- The position of an entry: the term and node of the leader that made it, and its index. -/
structure LogId where
  term : ℕ
  nodeId : ℕ
  index : ℕ
deriving DecidableEq, Repr

/-- A vote for a leader, which is committed once a quorum has granted it. -/
structure Vote where
  term : ℕ
  nodeId : ℕ
  committed : Bool
deriving DecidableEq, Repr

def Vote.le (v w : Vote) : Prop :=
  v.term < w.term ∨ v.term = w.term ∧
    (v.nodeId < w.nodeId ∨ v.nodeId = w.nodeId ∧ (v.committed = true → w.committed = true))

/-- A membership, as text, and the entry that set it. -/
structure StoredMembership where
  logId : Option LogId
  membership : Bytes
deriving DecidableEq, Repr

structure RaftStateMeta where
  vote : Option Vote
  lastLogId : Option LogId
  lastPurgedLogId : Option LogId
  lastApplied : Option LogId
  membership : StoredMembership
deriving DecidableEq, Repr

def RaftStateMeta.default : RaftStateMeta := ⟨none, none, none, none, ⟨none, []⟩⟩

/-- A set in a replicated command, with its absolute expiry time. -/
structure SetOp where
  key : Bytes
  value : Bytes
  ttl : UInt64
deriving DecidableEq

/-- The writes of one client request, applied as one unit. -/
structure RaftCommand where
  sets : List SetOp
  dels : List Bytes
  ssi : Option SsiCommitRecord
deriving DecidableEq

def RaftCommand.isEmpty (cmd : RaftCommand) : Bool := cmd.sets.isEmpty && cmd.dels.isEmpty

/-- The text of a client request: a command, if it parses as one, or any other text. -/
inductive Request
  | command (cmd : RaftCommand)
  | text (line : Bytes)
deriving DecidableEq

inductive EntryPayload
  | blank
  | normal (request : Request)
  | membership (m : Bytes)
deriving DecidableEq

structure Entry where
  logId : LogId
  payload : EntryPayload
deriving DecidableEq

def raftPrefix : Bytes := Bytes.ofString "__sys__/raft/"

def raftMetaKey : Bytes := Bytes.ofString "__sys__/raft/meta"

/-- The key is one that Raft uses itself. -/
def isRaftKey (key : Bytes) : Bool := raftPrefix.isPrefixOf key

end OmniKV
