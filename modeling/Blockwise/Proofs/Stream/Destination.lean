import Blockwise.Proofs.Stream.Safety
import Blockwise.Proofs.Volume.Safety

namespace Blockwise

open Act

-- A destination that appends all that it is given or stays as it is. Nothing but its close brings
-- about that it is closed.
structure Sink.Conserves {δ β : Type} (sink : Sink δ (Site β)) (g : Regime (Site β))
    (sound : δ → Prop) (content : δ → β → Bytes) (closed : δ → β → Prop) : Prop where
  write : ∀ data out s, sound out → g.holds s → Ends (sink.write data) (out, s)
    (fun _ p => content p.1 p.2.store = content out s.store ++ data)
    (fun _ p => content p.1 p.2.store = content out s.store)
  flush : ∀ out s, sound out → g.holds s → Ends sink.flush (out, s)
    (fun _ p => content p.1 p.2.store = content out s.store)
    (fun _ p => content p.1 p.2.store = content out s.store)
  close : ∀ out s, sound out → g.holds s → Ends sink.close (out, s)
    (fun _ p => content p.1 p.2.store = content out s.store ∧ closed p.1 p.2.store)
    (fun _ p => content p.1 p.2.store = content out s.store)

-- A destination that refuses no write while it is calm, and no close, which leaves its store ready.
structure Sink.Faultless {δ β : Type} (sink : Sink δ (Site β)) (g : Regime (Site β))
    (sound : δ → Prop) (calm : δ → β → Prop) (ready : β → Prop) : Prop where
  write : ∀ data out s, sound out → g.holds s → calm out s.store → Ends (sink.write data) (out, s)
    (fun _ p => calm p.1 p.2.store) (fun _ _ => False)
  close : ∀ out s, sound out → g.holds s → calm out s.store → Ends sink.close (out, s)
    (fun _ p => ready p.2.store) (fun _ _ => False)

namespace Guarded

variable {γ δ β : Type} {verdict : Verdict γ} {sink : Sink δ β} {kind : CallKind}
  {x : Act (δ × β) Unit} {out : δ} {t : Guarded γ β}

-- A call that is refused leaves what is behind the guard as it was.
theorem guardSink_either (done failed : δ → β → Prop)
    (hx : Ends x (out, t.inner) (fun _ p => done p.1 p.2) (fun _ p => failed p.1 p.2))
    (hrefused : failed out t.inner) :
    Ends (guardSink verdict sink kind x) (out, t) (fun _ p => done p.1 p.2.inner)
      (fun _ p => failed p.1 p.2.inner) := by
  simp only [guardSink, ends_bind, ends_get, ends_onPart, ask, ends_mapFailure]
  exact .always (fun _ _ => hx) fun _ _ => hrefused

end Guarded

-- Refuses the calls for which it says so, one after the other, and none after its end.
def Verdict.script : Verdict (List Bool) := fun _ _ => do
  match ← get with
  | [] => return ()
  | refuse :: rest =>
    set rest
    if refuse then throw (.io (.other "refused"))

namespace MemoryStore

variable {γ : Type} {verdict : Verdict γ}

theorem holds_empty : regime.holds {} := by
  intro name file hfile
  exact absurd hfile (by simp)

-- Memory behind a guard as a destination.
abbrev guarded (verdict : Verdict γ) : Sink MemoryOutput (Site (Guarded γ MemoryStore)) :=
  Output.plainSink (Guarded.sink verdict sink)

theorem guarded_safe (verdict : Verdict γ) (pools : Nat) (shape : Option (Nat × Nat)) :
    (guarded verdict).Safe (Site.regime pools shape (Guarded.regime regime)) fun _ => True :=
  Output.plainSink_safe (Guarded.sink_safe sink_safe)

theorem flush_buffer (out : MemoryOutput) (s : MemoryStore) :
    Ends flush (out, s) (fun _ p => p.1.buffer = out.buffer) (fun _ p => p.1.buffer = out.buffer) := by
  obtain ⟨name, buffer, dirty, closed⟩ := out
  cases dirty with
  | true => rfl
  | false => rfl

theorem guarded_conserves (verdict : Verdict γ) (g : Regime (Site (Guarded γ MemoryStore))) :
    (guarded verdict).Conserves g (fun _ => True) (fun out _ => out.buffer)
      (fun out _ => out.closed = true) where
  write data out s _ _ := by
    rw [guarded, Output.ends_plainSink_write]
    refine Guarded.guardSink_either
      (fun (out' : MemoryOutput) _ => out'.buffer = out.buffer ++ data)
      (fun out' _ => out'.buffer = out.buffer) ?_ rfl
    obtain ⟨name, buffer, dirty, closed⟩ := out
    cases closed with
    | true => rfl
    | false => rfl
  flush out s _ _ := by
    rw [guarded, Output.ends_plainSink_flush]
    exact Guarded.guardSink_either
      (fun (out' : MemoryOutput) _ => out'.buffer = out.buffer)
      (fun out' _ => out'.buffer = out.buffer) (flush_buffer out s.store.inner) rfl
  close out s _ _ := by
    rw [guarded, Output.ends_plainSink_close]
    refine Guarded.guardSink_either
      (fun (out' : MemoryOutput) _ => out'.buffer = out.buffer ∧ out'.closed = true)
      (fun out' _ => out'.buffer = out.buffer) ?_ rfl
    obtain ⟨name, buffer, dirty, closed⟩ := out
    cases closed with
    | true => exact ⟨rfl, rfl⟩
    | false =>
      cases dirty with
      | true => exact ⟨rfl, rfl⟩
      | false => exact ⟨rfl, rfl⟩

-- After the end of the script nothing is refused as long as the output is open.
theorem scripted_faultless (g : Regime (Site (Guarded (List Bool) MemoryStore))) :
    (guarded .script).Faultless g (fun _ => True)
      (fun out s => s.guard = [] ∧ out.closed = false) (fun s => s.guard = []) where
  write data out s _ _ hcalm := by
    obtain ⟨tier, ⟨guard, inner⟩⟩ := s
    obtain ⟨name, buffer, dirty, closed⟩ := out
    obtain ⟨rfl, rfl⟩ := hcalm
    exact ⟨rfl, rfl⟩
  close out s _ _ hcalm := by
    obtain ⟨tier, ⟨guard, inner⟩⟩ := s
    obtain ⟨name, buffer, dirty, closed⟩ := out
    obtain ⟨rfl, rfl⟩ := hcalm
    cases dirty with
    | true => rfl
    | false => rfl

end MemoryStore

end Blockwise
