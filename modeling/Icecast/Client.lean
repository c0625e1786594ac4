import Mathlib.Algebra.Group.Nat.Defs
import Mathlib.Algebra.Group.Int.Defs
import Mathlib.Data.List.Basic

namespace Icecast

-- What con->send meets: a socket that takes up to `k` bytes, one that takes none for
-- now, or a broken connection.
inductive Send where
  | sent (k : Nat)
  | blocked
  | failed
deriving DecidableEq,Repr

structure Sent where
  ret : Int
  error : Bool
  bytes : List UInt8
deriving DecidableEq,Repr

def intMax : Nat := 2^31-1

-- client_send_bytes. sock_write_bytes refuses an empty buffer with -1; its return
-- value is an int.
def clientSendBytes (buf : List UInt8) : Send → Sent
  | .sent k =>
    if buf = [] then ⟨-1,false,[]⟩ else
    let bytes := buf.take (min k intMax)
    ⟨bytes.length,false,bytes⟩
  | .blocked => ⟨-1,false,[]⟩
  | .failed => ⟨-1,true,[]⟩

theorem send_bytes_spec (buf : List UInt8) (send : Send) :
    (clientSendBytes buf send).bytes = buf.take (clientSendBytes buf send).ret.toNat ∧
    (clientSendBytes buf send).ret ≤ buf.length ∧ (clientSendBytes buf send).bytes.length =
    (clientSendBytes buf send).ret.toNat := by
  cases send with
  | sent k =>
    unfold clientSendBytes
    dsimp only
    split
    · exact ⟨rfl,by simp,rfl⟩
    · refine ⟨?_,?_,Int.toNat_natCast _⟩
      · simp only [Int.toNat_natCast,List.length_take]
        rw [List.take_eq_take_iff]
        omega
      · simp only [List.length_take]
        omega
  | blocked => exact ⟨rfl,by simp [clientSendBytes],rfl⟩
  | failed => exact ⟨rfl,by simp [clientSendBytes],rfl⟩

-- client->check_buffer of a listener.
inductive CheckBuffer where
  | http | file | advance
deriving DecidableEq,Repr

-- client->refbuf: none, a buffer of the client's own, or a node of a mount's queue.
inductive ClientBuf where
  | null
  | own (data : List UInt8)
  | queue (mount addr : Nat)
deriving DecidableEq,Repr

def ClientBuf.refs : ClientBuf → List Nat
  | .queue _ addr => [addr]
  | _ => []

-- A client_t that listens. write_to_client is format_generic_write_to_client or the
-- write_buf_to_client of a plugin. `placedAt` and `delivered` only record where in the
-- source's data find_client_start last put the client and what it was sent from there since.
structure Listener (δ : Type u) where
  id : Nat
  error : Bool
  respcode : Nat
  checkBuffer : CheckBuffer
  writeToClient : Option Nat
  refbuf : ClientBuf
  pos : Nat
  introOffset : Int
  formatData : δ
  placedAt : Option Nat
  delivered : List UInt8
deriving DecidableEq,Repr

-- The listeners' references to queue nodes.
def queueRefs (clients : List (Listener δ)) : List Nat := clients.flatMap (·.refbuf.refs)

@[simp] theorem queueRefs_nil : queueRefs ([] : List (Listener δ)) = [] := rfl
@[simp] theorem queueRefs_cons : queueRefs (c::clients) = c.refbuf.refs++queueRefs clients := rfl
@[simp] theorem queueRefs_append : queueRefs (xs++ys) = queueRefs xs++queueRefs ys := List.flatMap_append

-- avl_insert in the order of _compare_clients.
def insertClient (c : Listener δ) : List (Listener δ) → List (Listener δ)
  | [] => [c]
  | d::rest => if c.id ≤ d.id then c::d::rest else d::insertClient c rest

theorem insertClient_perm (c : Listener δ) (clients : List (Listener δ)) :
    (insertClient c clients).Perm (c::clients) := by
  induction clients with
  | nil => exact .refl _
  | cons d rest ih =>
    unfold insertClient
    split
    · exact .refl _
    · exact (ih.cons d).trans (.swap c d rest)

theorem insertClient_sorted {c : Listener δ} {clients : List (Listener δ)}
    (sorted : clients.Pairwise fun a b => a.id ≤ b.id) :
    (insertClient c clients).Pairwise fun a b => a.id ≤ b.id := by
  induction clients with
  | nil => exact List.pairwise_singleton _ _
  | cons d rest ih =>
    obtain ⟨first,sorted⟩ := List.pairwise_cons.mp sorted
    unfold insertClient
    split
    case isTrue below =>
      exact List.pairwise_cons.mpr
        ⟨List.forall_mem_cons.mpr ⟨below,fun e member => Nat.le_trans below (first e member)⟩,
          List.pairwise_cons.mpr ⟨first,sorted⟩⟩
    case isFalse above =>
      refine List.pairwise_cons.mpr ⟨?_,ih sorted⟩
      intro e member
      rcases List.mem_cons.mp ((insertClient_perm c rest).mem_iff.mp member) with rfl | member
      · omega
      · exact first e member

theorem insertClients_sorted {clients : List (Listener δ)} (sorted : clients.Pairwise fun a b => a.id ≤ b.id)
    (new : List (Listener δ)) :
    (new.foldl (fun tree c => insertClient c tree) clients).Pairwise (fun a b => a.id ≤ b.id) ∧
    (new.foldl (fun tree c => insertClient c tree) clients).Perm (new++clients) := by
  induction new generalizing clients with
  | nil => exact ⟨sorted,.refl _⟩
  | cons c new ih =>
    obtain ⟨sorted,perm⟩ := ih (insertClient_sorted sorted)
    refine ⟨sorted,perm.trans ?_⟩
    exact ((insertClient_perm c clients).append_left new).trans List.perm_middle

end Icecast
