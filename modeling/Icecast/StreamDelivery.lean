import Icecast.Ebml
import Icecast.Mp3Writer

namespace Icecast
open Linked Mp3

variable {δ : Type v} {plugins : Nat → Plugin MetaBuf (ClientData δ)}

-- Where a listener on the queue of mount `i` stands after what it was sent.
structure Position (q : Queue α) (c : Listener δ) (start : Nat) (cells : List Nat) (a : Nat) : Prop where
  held : c.refbuf = .queue q.mount a
  listed : a ∈ cells
  here : ∃ data tag seq, q.fixedAt a = some (data,tag,seq) ∧ start+c.delivered.length = seq+c.pos ∧ c.pos ≤ data.length

theorem Follows.position {q : Queue α} {plugins : Nat → Plugin α δ} {c : Listener δ} (follows : Follows plugins q c)
    (ok : ListenerOk q.mount c) (plain : Plain plugins c) (placed : c.placedAt = some start)
    (inside : ∀ a ∈ c.refbuf.refs, a ∈ cells) :
    c.delivered <+: q.produced.drop start ∧ ∃ a, Position q c start cells a := by
  obtain ⟨sent,position⟩ := follows plain start placed
  by_cases advance : c.checkBuffer = .advance
  · obtain ⟨a,_,queued,_⟩ := ok.advance advance
    exact ⟨sent,a,queued,inside a (by rw [queued]; exact List.mem_singleton_self a),position _ a queued⟩
  · rw [(ok.other advance).2] at placed
    cases placed

end Icecast
