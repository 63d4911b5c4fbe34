import Blockwise.Proofs.Session.Careful

namespace Blockwise

open Act

namespace Session

variable {scope : Scope} {start x : Session} {seen : String → Option Bytes} {name handle : String}

theorem read_delivers {r : Reader AnyInput} (hr : x.inputs[handle]? = some r) (len : Nat) :
    ∃ position, (x.read handle len).1 =
      .delivered (feed.read r.source r.position len x.site).1 len position := by
  unfold Session.read onInput
  simp only [hr, Reader.read]
  rcases feed.read r.source r.position len x.site with ⟨⟨bytes, failure⟩, site⟩
  cases failure with
  | none => exact ⟨_, rfl⟩
  | some e => exact ⟨_, rfl⟩

-- After any run that is careful about a file, a read of the file that succeeds has the bytes that
-- the store held for it when the input, or the one it was cloned from, was opened. At a calm store
-- all reads within these bytes succeed.
theorem read_eq_held {sizing : Sizing} {memory : Memory} {depth len : Nat} {policy : Policy}
    {ownBuffers : Bool} {file : String}
    (hnew : new (some sizing) depth [.memory] [⟨name, .backend 0, policy, ownBuffers⟩] memory =
      .ok start)
    (hrun : Reached (Careful (.around file)) start x seen) (hfile : x.fileOf handle = some file) :
    ∃ r data delivery position, x.inputs[handle]? = some r ∧ seen handle = some data ∧
      (x.step (.read handle len)).1.answer = .delivered delivery len position ∧
        (delivery.failure = none ∨ x.Calm → delivery = .ofFile file data r.position len) := by
  obtain ⟨r, hr, hfile⟩ := Option.map_eq_some_iff.mp hfile
  obtain ⟨d, hstart, _⟩ := start_tracked (.around file) hnew
  obtain ⟨history, sh, h⟩ := hrun.tracked hstart
  obtain ⟨name, data, hseen, hopened⟩ := h.inputs handle r hr
  obtain rfl : name = file := hopened.name_eq.symm.trans hfile
  obtain ⟨_, hread⟩ := h.fresh.read_spec hopened r.position len
  obtain ⟨position, hanswer⟩ := @read_delivers
    { x with site := { x.site with tier := { x.site.tier with journal := #[] } } } handle r hr len
  refine ⟨r, data, _, position, hr, hseen, hanswer, fun hcase => ?_⟩
  exact hread rfl (hcase.imp_right h.calm)

-- The only output there is has its file for itself.
theorem Alone.of_keys (h : x.outputs.keys = [handle]) (name : String) : x.Alone handle name := by
  intro other out w o hne hout
  have hmem : other ∈ x.outputs.keys :=
    Std.TreeMap.mem_keys.mpr (Std.TreeMap.mem_iff_isSome_getElem?.mpr (by rw [hout]; rfl))
  rw [h, List.mem_singleton] at hmem
  exact absurd hmem.symm hne

theorem settled_of_staged
    (h : ((x.draftOf handle).all fun p => p.1.staged.size != p.1.flushed) = true) :
    x.Settled scope handle := by
  intro w o hdraft _ hidle
  rw [hdraft] at h
  exact absurd hidle (bne_iff_ne.mp h)

-- A file is replaced past the output that writes it, which has more to publish when it closes, and
-- once more under the input that is opened then.
theorem read_eq_held_overtaken : ∃ start x seen,
    new (some (.ofLayout 1 2 8192)) 1 [.memory] [⟨"d", .backend 0, {}, false⟩] = .ok start ∧
      Reached (Careful (.around "f")) start x seen ∧ x.fileOf "r" = some "f" ∧ x.Calm ∧
        (x.step (.read "r" 1)).1.answer = .delivered ⟨⟨#[1]⟩, none⟩ 1 1 ∧
          ∃ r data delivery position, x.inputs["r"]? = some r ∧ seen "r" = some data ∧
            (x.step (.read "r" 1)).1.answer = .delivered delivery 1 position ∧
              (delivery.failure = none ∨ x.Calm → delivery = .ofFile "f" data r.position 1) := by
  have hnew : new (some (.ofLayout 1 2 8192)) 1 [.memory] [⟨"d", .backend 0, {}, false⟩] = .ok _ :=
    rfl
  have hstart : ∀ {y}, new (some (.ofLayout 1 2 8192)) 1 [.memory]
      [⟨"d", .backend 0, {}, false⟩] = .ok y → Reached (Careful (.around "f")) y y fun _ => none :=
    fun _ => .start
  have hwritten := ((hstart hnew).step (.create (.directory 0) "f" .general "w")
    ⟨rfl, Directory.apart_self _⟩).step (.write "w" ⟨#[1]⟩) fun _ _ _ _ _ =>
      .of_keys (by decide +kernel) _
  have hclosed := (hwritten.step (.put 0 "f" ⟨#[2]⟩) ⟨rfl, Directory.apart_self _⟩).step
    (.closeOutput "w") ⟨fun _ _ _ _ _ => .of_keys (by decide +kernel) _,
      settled_of_staged (by decide +kernel)⟩
  have hrun := (hclosed.step (.openInput (.directory 0) "f" .general "r") rfl).step
    (.put 0 "f" ⟨#[3]⟩) ⟨rfl, Directory.apart_self _⟩
  refine ⟨_, _, _, hnew, hrun, ?_, ?_, ?_, read_eq_held hnew hrun ?_⟩
  · decide +kernel
  · decide +kernel
  · decide +kernel
  · decide +kernel

-- The call of an output succeeded.
def Answer.succeeded : Answer → Bool
  | .moved none _ => true
  | _ => false

def after (x : Session) (steps : List Step) : Session := steps.foldl (fun x s => (x.step s).2) x

-- Without that care a read is wrong: an output has published all it was given when its file is
-- replaced past it, and as it closes its blocks take the name of the version that replaced them.
theorem read_ne_held_unsettled : ∃ start,
    new (some (.ofLayout 1 2 8192)) 1 [.memory] [⟨"d", .backend 0, {}, false⟩] = .ok start ∧
      let replaced := start.after [.create (.directory 0) "f" .general "w", .write "w" ⟨#[1]⟩,
        .flush "w", .put 0 "f" ⟨#[2]⟩]
      let x := replaced.after [.closeOutput "w", .openInput (.directory 0) "f" .general "r"]
      (replaced.step (.closeOutput "w")).1.answer.succeeded = true ∧
        x.current "f" = some ⟨#[2]⟩ ∧
          (x.step (.read "r" 1)).1.answer = .delivered ⟨⟨#[1]⟩, none⟩ 1 1 := by
  refine ⟨_, rfl, ?_, ?_, ?_⟩
  · decide +kernel
  · decide +kernel
  · decide +kernel

end Session

end Blockwise
