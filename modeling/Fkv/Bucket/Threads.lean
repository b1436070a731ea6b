import Fkv.Bucket.Trace
import Fkv.Lib.Schedules

namespace Fkv
open CWord Runs

/-- The next access of a call of `insert_index_entry` or `delete_index_entry`: the
slot its loop has come to, the two fields of the slot it has found, the link of a
bucket it has gone through, tested and then followed, the version of a spare, read
and then swapped, and the link to the spare it has claimed. -/
inductive IndexPc
  | idle
  | slot (bkt index : Nat)
  | first (bkt index : Nat)
  | second (bkt index : Nat)
  | link (bkt : Nat)
  | follow (bkt : Nat)
  | spare (bkt k : Nat)
  | swap (bkt k : Nat)
  | join (bkt next : Nat)
  deriving DecidableEq

/-- A thread: its call, whether what the call does is settled, and where it is. -/
structure IndexThread where
  call : IndexCall
  decided : Bool
  pc : IndexPc

/-- What an access leaves, and the results it settles and returns. -/
structure IndexMove where
  pool : BucketPool
  thread : IndexThread
  decides : List Bool
  returns : List Bool

/-- Threads at work on one pool. `accesses` counts those of the last call of each,
`order` remembers the calls in the order in which what they do was settled,
`returned` in the order in which they returned. -/
structure IndexRace (τ : Type*) where
  pool : BucketPool
  threads : τ → IndexThread
  accesses : τ → Nat
  order : List (τ × IndexCall × Bool)
  returned : List (τ × IndexCall × Bool)

inductive IndexStep (τ : Type*)
  | start (t : τ) (call : IndexCall)
  | next (t : τ)

namespace IndexCall

def test : IndexCall → IndexEntry → Bool
  | .insert _, e => isEmptyEntry e
  | .delete args, e => matchIndexEntry e args.keyhash args.offset

/-- An insert writes the offset first, a delete the tag. -/
def first : IndexCall → IndexEntry → IndexEntry
  | .insert args, e => { e with offset := args.offset % 2 ^ 48 }
  | .delete _, e => { e with tag := 0 }

def second : IndexCall → IndexEntry → IndexEntry
  | .insert args, e => { e with tag := lookupKeyTagHashPortion args.keyhash }
  | .delete _, e => { e with offset := 0 }

/-- What is in the slot in the end. -/
def leaves : IndexCall → IndexEntry
  | .insert args => ⟨lookupKeyTagHashPortion args.keyhash, args.offset % 2 ^ 48⟩
  | .delete _ => ⟨0, 0⟩

theorem second_first (call : IndexCall) (e : IndexEntry) : call.second (call.first e) = call.leaves := by
  cases call <;> rfl

end IndexCall

namespace IndexThread

def busy (th : IndexThread) : Bool := th.pc != .idle

/-- One access. -/
def move (pool : BucketPool) (th : IndexThread) : IndexMove :=
  match th.pc with
  | .idle => ⟨pool, th, [], []⟩
  | .slot bkt index =>
    if th.call.test (pool.entry (bkt, index)) then
      ⟨pool, ⟨th.call, true, .first bkt index⟩, if th.decided then [] else [true], []⟩
    else ⟨pool, { th with pc := if index + 1 < bucketEntrySize then .slot bkt (index + 1) else .link bkt }, [], []⟩
  | .first bkt index =>
    ⟨pool.setEntry bkt index (th.call.first (pool.entry (bkt, index))),
      { th with pc := .second bkt index }, [], []⟩
  | .second bkt index =>
    ⟨pool.setEntry bkt index (th.call.second (pool.entry (bkt, index))), ⟨th.call, false, .idle⟩, [], [true]⟩
  | .link bkt =>
    if (pool.cells bkt).offset = 0 then
      match th.call with
      | .insert _ => ⟨pool, { th with pc := .spare bkt 0 }, [], []⟩
      | .delete _ => ⟨pool, ⟨th.call, false, .idle⟩, [true], [true]⟩
    else ⟨pool, { th with pc := .follow bkt }, [], []⟩
  | .follow bkt => ⟨pool, { th with pc := .slot (add64 bkt (pool.cells bkt).offset) 0 }, [], []⟩
  | .spare bkt k =>
    if k < pool.spareSize then
      ⟨pool,
        { th with pc := if (pool.cells (pool.sparePtr k)).version ≠ 0 then .spare bkt (k + 1) else .swap bkt k },
        [], []⟩
    else ⟨pool, ⟨th.call, false, .idle⟩, [false], [false]⟩
  | .swap bkt k =>
    if (pool.cells (pool.sparePtr k)).version = 0 then
      ⟨pool.setVersion (pool.sparePtr k) 2, ⟨th.call, true, .join bkt (pool.sparePtr k)⟩, [true], []⟩
    else ⟨pool, { th with pc := .spare bkt (k + 1) }, [], []⟩
  | .join bkt next => ⟨pool.setLink bkt (sub64 next bkt % 2 ^ 32), { th with pc := .slot next 0 }, [], []⟩

/-- The result that is settled and not returned yet. -/
def owed (th : IndexThread) : List Bool := if th.decided then [true] else []

end IndexThread

namespace IndexRace
variable {τ : Type*} [DecidableEq τ]

def step (s : IndexRace τ) : IndexStep τ → IndexRace τ
  | .start t call =>
    { s with
      threads := Function.update s.threads t ⟨call, false, .slot (s.pool.mainPtr call.args.main) 0⟩
      accesses := Function.update s.accesses t 0 }
  | .next t =>
    { pool := ((s.threads t).move s.pool).pool
      threads := Function.update s.threads t ((s.threads t).move s.pool).thread
      accesses := if (s.threads t).busy then Function.update s.accesses t (s.accesses t + 1) else s.accesses
      order := s.order ++ ((s.threads t).move s.pool).decides.map fun result => (t, (s.threads t).call, result)
      returned := s.returned ++ ((s.threads t).move s.pool).returns.map
        fun result => (t, (s.threads t).call, result) }

/-- A thread starts a call on a main bucket that no other is in a call on. -/
def Legal (s : IndexRace τ) : IndexStep τ → Prop
  | .start t call => (s.threads t).busy = false ∧ call.args.Legal s.pool.mainSize ∧
      ∀ u, (s.threads u).busy = true → (s.threads u).call.args.main ≠ call.args.main
  | .next _ => True

def start (pool : BucketPool) : IndexRace τ :=
  ⟨pool, fun _ => ⟨.insert ⟨0, 0, 0⟩, false, .idle⟩, fun _ => 0, [], []⟩

/-- The results of one thread. -/
def of (t : τ) (results : List (τ × IndexCall × Bool)) : List (IndexCall × Bool) :=
  (results.filter fun result => result.1 = t).map Prod.snd

end IndexRace

/-- The calls made one after the other have the results recorded. -/
def Replays {τ : Type*} (fuel : Nat) : List (τ × IndexCall × Bool) → BucketPool → BucketPool → Prop
  | [], pool, pool' => pool' = pool
  | (_, call, result) :: rest, pool, pool' =>
    ∃ pool₁, performIndex fuel pool call = .ok (result, pool₁) ∧ Replays fuel rest pool₁ pool'

/-- What the results say is in the chains. -/
def booked {τ : Type*} (results : List (τ × IndexCall × Bool)) (family : Nat → Multiset IndexEntry) :
    Nat → Multiset IndexEntry :=
  results.foldl (fun family result => result.2.1.book result.2.2 family) family

/-- The calls did what they would have done one after the other in the order in
which they were settled, each between its start and its return, with the same
results. Where no call is under way the chains are as they would be then. -/
def IndexRace.Linearized {τ : Type*} [DecidableEq τ] (fuel : Nat) (pool : BucketPool) (s : IndexRace τ) : Prop :=
  ∃ q, Replays fuel s.order pool q ∧ q.WellFormed ∧
    (∀ i < q.mainSize, q.contents i = booked s.order pool.contents i) ∧
    (∀ i < q.mainSize, (∀ t, (s.threads t).busy = true → (s.threads t).call.args.main ≠ i) →
      q.Untouched s.pool i) ∧
    ((∀ t, (s.threads t).busy = false) → s.pool = q) ∧
    ∀ t, of t s.order = of t s.returned ∨
      (s.threads t).busy = true ∧ of t s.order = of t s.returned ++ [((s.threads t).call, true)]

end Fkv
