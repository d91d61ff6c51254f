import RaftFS.Protocol
import Mathlib.Data.Int.Notation

/-!
# The log

`LogManager` keeps the entries in memory, oldest first, and the last index committed. What it
does to its deque by iterators is done here by positions.
-/

namespace RaftFS

/-- The largest `int`. -/
def intMax : ℕ := 2147483647

structure LogManager where
  memoryLog : List Entry := []
  lastCommitedIndex : ℕ := 0
  deriving DecidableEq, Repr

namespace LogManager

variable (log : LogManager)

def getLastLogIndex : ℕ := (log.memoryLog.getLast?.map (·.index)).getD 0

def getLastLogTerm : ℕ := (log.memoryLog.getLast?.map (·.term)).getD 0

def getLastLogTermAndIndex : ℕ × ℕ := (log.getLastLogTerm, log.getLastLogIndex)

def getLastCommitIndex : ℕ := if log.memoryLog.isEmpty then 0 else log.lastCommitedIndex

/-- Reads the last entry first, so there is no result on an empty log. -/
def setLastCommitIndex (newIndex : ℕ) : Option LogManager :=
  log.memoryLog.getLast?.map fun back =>
    if newIndex ≤ back.index then { log with lastCommitedIndex := newIndex } else log

/-- The search from the end. -/
def getEntry (index : ℤ) : Option Entry :=
  log.memoryLog.reverse.find? fun e => (e.index : ℤ) = index

/-- The loop of `GetEntryLoc` from the counter `i` on. The counter is an `int`, so there is no
result where it goes past the largest one. -/
def getEntryLocLoop (lookupIndex : ℤ) : List Entry → ℕ → Option ℤ
  | [], _ => some (-1)
  | e :: es, i =>
    if (e.index : ℤ) = lookupIndex then some i
    else if i < intMax then getEntryLocLoop lookupIndex es (i + 1)
    else none

/-- The search from the front, for a place or `-1`. -/
def getEntryLoc (lookupIndex : ℤ) : Option ℤ := getEntryLocLoop lookupIndex log.memoryLog 0

/-- `std::lower_bound` on `len` entries from the place `first`, an entry being before `startIndex`
when its index is at most that. The length is halved each time, so `fuel` of it is enough. -/
def lowerBound (l : List Entry) (startIndex : ℕ) : (fuel first len : ℕ) → ℕ
  | 0, first, _ => first
  | fuel + 1, first, len =>
    if len = 0 then first
    else
      match l[first + len / 2]? with
      | none => first
      | some middle =>
        if middle.index ≤ startIndex then
          lowerBound l startIndex fuel (first + len / 2 + 1) (len - len / 2 - 1)
        else lowerBound l startIndex fuel first (len / 2)

def getEntriesStartAt (startIndex : ℕ) : List Entry :=
  log.memoryLog.drop (lowerBound log.memoryLog startIndex log.memoryLog.length 0
    log.memoryLog.length)

/-- `Append` of one entry, which gets the index after the size. -/
def append (e : Entry) : LogManager × Entry :=
  let e := { e with index := log.memoryLog.length + 1 }
  ({ log with memoryLog := log.memoryLog ++ [e] }, e)

/-- The loop of the batch `Append` over the new entries, with the place `it` in the log. A new
entry that is pushed leaves `it` where the end was. -/
def appendLoop : List Entry → ℕ → List Entry → ℕ × List Entry
  | [], it, l => (it, l)
  | e :: es, it, l =>
    match l[it]? with
    | some x =>
      if e.index = x.index ∧ e.term = x.term then appendLoop es (it + 1) l
      else appendLoop es (it + 1) (l.set it e)
    | none => appendLoop es it (l ++ [e])

/-- The place of the first entry of `l` with the index and the term of `front`. -/
def firstSame (l : List Entry) (front : Entry) : ℕ :=
  l.findIdx fun e => front.index = e.index ∧ front.term = e.term

/-- `Append` of a batch, and whether it is taken. Where the log is not empty the first new entry
is read, so there is then no result on an empty batch. -/
def appendBatch (newEntries : List Entry) : Option (LogManager × Bool) :=
  match log.memoryLog.getLast?, newEntries with
  | none, es => some ({ log with memoryLog := es }, true)
  | some _, [] => none
  | some back, front :: es =>
    if front.index = back.index + 1 then
      some ({ log with memoryLog := log.memoryLog ++ front :: es }, true)
    else
      let firstSameIt := firstSame log.memoryLog front
      if firstSameIt < log.memoryLog.length then
        let (it, l) := appendLoop (front :: es) firstSameIt log.memoryLog
        -- the entries past the batch are erased
        some ({ log with memoryLog := if it ≠ l.length then l.take it else l }, true)
      else some (log, false)

end LogManager

end RaftFS
