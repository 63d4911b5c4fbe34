import Blockwise.Proofs.Ranges
import Blockwise.Proofs.Volume.Calm

namespace Blockwise

open Act

-- An input that delivers a file from all states of a kind, each time into such a state again. A sure one
-- fails only where the file does not reach.
structure Feed.Yields {ι σ : Type} (feed : Feed ι σ) (input : ι) (name : String) (file : Bytes)
    (states : σ → Prop) (sure : Prop) : Prop where
  length : feed.length input = file.size
  read : ∀ position len s, states s → states (feed.read input position len s).2 ∧
    ((feed.read input position len s).1.failure = none ∨ sure →
      (feed.read input position len s).1 = .ofFile name file position len)

-- Outputs that take all they are given, or fail, which sure ones do not. One that was closed and dropped
-- leaves what it was given.
structure Sink.Collects {δ σ : Type} (sink : Sink δ σ) (holds : Bytes → δ × σ → Prop)
    (left : Bytes → σ → Prop) (sure : Prop) : Prop where
  write : ∀ got part p, holds got p →
    Ends (sink.write part) p (fun _ => holds (got ++ part)) (fun _ _ => ¬sure)
  close : ∀ got p, holds got p →
    Ends sink.close p (fun _ q => left got (sink.drop q.1 q.2)) (fun _ _ => ¬sure)

theorem Grid.sum_parts (length : Nat) : (Grid.parts length).sum = length := by
  induction length using Grid.parts.induct with
  | case1 => rw [Grid.parts, if_pos rfl, List.sum_nil]
  | case2 length hpos ih =>
    rw [Grid.parts, if_neg hpos, List.sum_cons, ih]
    omega

namespace Sink

variable {δ σ α : Type} {sink : Sink δ σ} {out : δ} {s : σ}

theorem ends_during {x : Act (δ × σ) α} {done : α → σ → Prop} {failed : Failure → σ → Prop} :
    Ends (sink.during out x) s done failed ↔ Ends x (out, s)
      (fun a p => done a (sink.drop p.1 p.2)) (fun e p => failed e (sink.drop p.1 p.2)) := by
  simp only [Ends, during]
  cases x (out, s) <;> rfl

end Sink

namespace Volume

variable {σ ι δ κ ι' δ' κ' : Type} {feed : Feed ι σ} {sink : Sink δ σ} {input : ι} {out : δ}
  {name destName : String} {file : Bytes} {found : Option Bytes} {holds : Bytes → δ × σ → Prop}
  {left : Bytes → σ → Prop} {sure : Prop} {s : σ} {p : δ × σ}

theorem copyPart_ends
    (hfeed : ∀ got out, feed.Yields input name file (fun s => holds got (out, s)) sure)
    (hsink : sink.Collects holds left sure) {position len : Nat} (hin : position + len ≤ file.size)
    (hp : holds (Bytes.slice file 0 position) p) :
    Ends (copyPart feed sink input position len) p
      (fun _ => holds (Bytes.slice file 0 (position + len))) (fun _ _ => ¬sure) := by
  obtain ⟨out, s⟩ := p
  obtain ⟨hkept, hread⟩ := (hfeed _ out).read position len s hp
  rw [Delivery.ofFile_of_le name hin] at hread
  rcases hrun : feed.read input position len s with ⟨⟨bytes, failure⟩, s'⟩
  rw [hrun] at hkept hread
  cases failure with
  | some e =>
    simp only [Ends, copyPart, hrun]
    intro hsure
    cases hread (.inr hsure)
  | none =>
    obtain rfl := congrArg Delivery.bytes (hread (.inl rfl))
    have hwritten := hsink.write _ (Bytes.slice file position len) (out, s') hkept
    have hgrown : Bytes.slice file 0 position ++
        Bytes.slice file (0 + position) (position + len - position) =
          Bytes.slice file 0 (position + len) :=
      Bytes.slice_append_slice (by omega) (by omega)
    rw [Nat.zero_add, Nat.add_sub_cancel_left] at hgrown
    rw [hgrown] at hwritten
    simpa only [Ends, copyPart, hrun] using hwritten

-- By induction on the parts that are left: what was copied so far is the start of the file.
theorem copyParts_ends
    (hfeed : ∀ got out, feed.Yields input name file (fun s => holds got (out, s)) sure)
    (hsink : sink.Collects holds left sure) {parts : List Nat} {position : Nat}
    (hsum : position + parts.sum = file.size) (hp : holds (Bytes.slice file 0 position) p) :
    Ends (copyParts feed sink input position parts) p (fun _ => holds file) (fun _ _ => ¬sure) := by
  induction parts generalizing position p with
  | nil =>
    rw [List.sum_nil, Nat.add_zero] at hsum
    rw [hsum, Bytes.slice_whole] at hp
    exact hp
  | cons len rest ih =>
    rw [List.sum_cons] at hsum
    rw [copyParts, ends_bind]
    refine (copyPart_ends hfeed hsink (by omega) hp).imp ?_ fun _ _ => id
    intro _ q hq
    exact ih (by omega) hq

-- All of a copy that comes after both files were opened.
theorem carry_ends
    (hfeed : ∀ got out, feed.Yields input name file (fun s => holds got (out, s)) sure)
    (hsink : sink.Collects holds left sure) (hstart : holds ByteArray.empty (out, s)) :
    Ends (sink.during out do
        copyParts feed sink input 0 (Grid.parts (feed.length input))
        sink.close) s
      (fun _ => left file) (fun _ _ => ¬sure) := by
  rw [Sink.ends_during, ends_bind, (hfeed ByteArray.empty out).length]
  rw [← Bytes.slice_zero file 0] at hstart
  refine (copyParts_ends hfeed hsink ?_ hstart).imp ?_ fun _ _ => id
  · rw [Nat.zero_add, Grid.sum_parts]
  · intro _ p hp
    exact hsink.close file p hp

-- A file of a volume as all who open it find it: every read delivers it.
def Delivers (v : Volume σ ι δ κ) (feed : Feed ι σ) (name : String) (file : Bytes) (s : σ)
    (sure : Prop) : Prop :=
  ∀ purpose, Ends (v.openInput name purpose) s
    (fun input s' => feed.length input = file.size ∧ ∀ position len,
      (feed.read input position len s').1.failure = none ∨ sure →
        (feed.read input position len s').1 = .ofFile name file position len)
    (fun _ _ => ¬sure)

-- How a copy of a file ends, which may not be there. A copy that ends well has been received, and where
-- nothing is refused, every copy of a file that is there ends well; if it is not there, the copy says so
-- and nothing has changed.
def Copied (found : Option Bytes) (name : String) (copy : Act σ Unit) (s : σ) (sure : Prop)
    (received : Bytes → σ → Prop) : Prop :=
  match found with
  | some data => Ends copy s (fun _ => received data) (fun _ _ => ¬sure)
  | none => Ends copy s (fun _ _ => False)
    (fun e s' => sure → e = .error (.fileNotFound name) ∧ s' = s)

theorem Copied.imp {copy : Act σ Unit} {received received' : Bytes → σ → Prop} {sure' : Prop}
    (h : Copied found name copy s sure received) (hsure : sure' → sure)
    (himp : ∀ data s', received data s' → received' data s') :
    Copied found name copy s sure' received' := by
  cases found with
  | none => exact Ends.imp h (fun _ _ => id) fun _ _ hfailed hsure' => hfailed (hsure hsure')
  | some data => exact Ends.imp h (fun _ => himp data) fun _ _ hfailed hsure' => hfailed (hsure hsure')

-- What an open of the file to copy finds.
def Finds (found : Option Bytes) (name : String) (openInput : Act σ ι) (s : σ) (sure : Prop)
    (opened : Bytes → ι → σ → Prop) : Prop :=
  Ends openInput s (fun input s' => ∃ data, found = some data ∧ opened data input s')
    (fun e s' => sure → found = none ∧ e = .error (.fileNotFound name) ∧ s' = s)

-- A copy ends as it does from where its input was opened.
theorem copied_of_opened {v : Volume σ ι' δ' κ'} {feed : Feed ι' σ} {dest : Volume σ ι δ κ}
    {purpose : Purpose} {received : Bytes → σ → Prop} {opened : Bytes → ι' → σ → Prop}
    (hfinds : Finds found name (v.openInput name purpose) s sure opened)
    (hcarried : ∀ data input s', found = some data → opened data input s' →
      Ends (dest.create destName purpose >>= fun out => sink.during out do
          copyParts feed sink input 0 (Grid.parts (feed.length input))
          sink.close) s'
        (fun _ => received data) (fun _ _ => ¬sure)) :
    Copied found name (v.copy feed dest sink name destName purpose) s sure received := by
  cases found with
  | none =>
    refine ends_bind.mpr (Ends.imp hfinds ?_ fun _ _ hfailed hsure => (hfailed hsure).2)
    rintro input s' ⟨_, hfound, _⟩
    cases hfound
  | some data =>
    refine ends_bind.mpr (Ends.imp hfinds ?_ fun _ _ hfailed hsure => ?_)
    · rintro input s' ⟨_, hfound, hopened⟩
      obtain rfl := Option.some.inj hfound
      exact hcarried data input s' rfl hopened
    · cases (hfailed hsure).1

end Volume

-- Two worlds side by side, neither of which knows of the other.
namespace Beside

variable {σ τ ι δ κ ι' δ' κ' α : Type}

def first (x : Act σ α) : Act (σ × τ) α := Act.onPart Prod.fst (fun (_, t) s => (s, t)) x

def second (x : Act τ α) : Act (σ × τ) α := Act.onPart Prod.snd (fun (s, _) t => (s, t)) x

def firstVolume (v : Volume σ ι δ κ) : Volume (σ × τ) ι δ κ := v.lift first id id id

def secondVolume (v : Volume τ ι' δ' κ') : Volume (σ × τ) ι' δ' κ' := v.lift second id id id

def firstFeed (feed : Feed ι σ) : Feed ι (σ × τ) where
  name := feed.name
  length := feed.length
  seek input position := first (feed.seek input position)
  read input position len p :=
    let (delivery, s) := feed.read input position len p.1
    (delivery, (s, p.2))
  clone input := first (feed.clone input)

def secondSink (sink : Sink δ' τ) : Sink δ' (σ × τ) :=
  let raise (x : Act (δ' × τ) Unit) : Act (δ' × σ × τ) Unit :=
    Act.onPart (fun (out, _, t) => (out, t)) (fun (_, s, _) (out, t) => (out, s, t)) x
  { name := sink.name
    position := sink.position
    write := fun data => raise (sink.write data)
    flush := raise sink.flush
    close := raise sink.close
    drop := fun out p => (p.1, sink.drop out p.2) }

-- A copy from a volume of the first world to one of the second.
def copy (v : Volume σ ι δ κ) (feed : Feed ι σ) (dest : Volume τ ι' δ' κ') (sink : Sink δ' τ)
    (name destName : String) (purpose : Purpose) : Act (σ × τ) Unit :=
  (firstVolume v).copy (firstFeed feed) (secondVolume dest) (secondSink sink) name destName purpose

variable {v : Volume σ ι δ κ} {feed : Feed ι σ} {dest : Volume τ ι' δ' κ'} {sink : Sink δ' τ}
  {input : ι} {name destName : String} {purpose : Purpose} {file : Bytes} {found : Option Bytes}
  {states : σ → Prop} {holds : Bytes → δ' × τ → Prop} {left : Bytes → τ → Prop}
  {sure sure' : Prop} {s : σ} {t : τ}

-- What an output of the second world was given, while an input of the first is read.
def Both (states : σ → Prop) (holds : Bytes → δ' × τ → Prop) (got : Bytes) (p : δ' × σ × τ) : Prop :=
  states p.2.1 ∧ holds got (p.1, p.2.2)

theorem yields_first (h : feed.Yields input name file states sure) (got : Bytes) (out : δ') :
    (firstFeed feed).Yields input name file (fun p : σ × τ => Both states holds got (out, p))
      (sure ∧ sure') where
  length := h.length
  read position len p hp := by
    obtain ⟨hstates, hread⟩ := h.read position len p.1 hp.1
    exact ⟨⟨hstates, hp.2⟩, fun hcase => hread (hcase.imp_right And.left)⟩

theorem collects_second (states : σ → Prop) (h : sink.Collects holds left sure') :
    (secondSink sink).Collects (Both states holds) (fun got (p : σ × τ) => left got p.2)
      (sure ∧ sure') where
  write got part p hp := by
    refine ends_onPart.mpr ((h.write got part _ hp.2).imp ?_ fun _ _ hfailed hsure => hfailed hsure.2)
    exact fun _ q hq => ⟨hp.1, hq⟩
  close got p hp := by
    refine ends_onPart.mpr ((h.close got _ hp.2).imp (fun _ _ => id) ?_)
    exact fun _ _ hfailed hsure => hfailed hsure.2

-- A copy to another world is sure if both worlds are.
theorem copied
    (hfinds : Volume.Finds found name (v.openInput name purpose) s sure
      fun data input s' => ∃ states, states s' ∧ feed.Yields input name data states sure)
    (hcreate : Ends (dest.create destName purpose) t
      (fun out t' => holds ByteArray.empty (out, t')) (fun _ _ => ¬sure'))
    (hcollects : sink.Collects holds left sure') :
    Volume.Copied found name (copy v feed dest sink name destName purpose) (s, t) (sure ∧ sure')
      fun data p => left data p.2 := by
  have hlifted : Volume.Finds found name ((firstVolume v).openInput name purpose) (s, t)
      (sure ∧ sure') fun data input p => p.2 = t ∧
        ∃ states, states p.1 ∧ feed.Yields input name data states sure := by
    refine ends_map.mpr (ends_onPart.mpr (Ends.imp hfinds ?_ ?_))
    · rintro input s' ⟨data, hfound, hopened⟩
      exact ⟨data, hfound, rfl, hopened⟩
    · rintro e s' hfailed ⟨hsure, _⟩
      obtain ⟨hnone, he, rfl⟩ := hfailed hsure
      exact ⟨hnone, he, rfl⟩
  refine Volume.copied_of_opened hlifted ?_
  rintro data input ⟨s', _⟩ _ ⟨rfl, states, hs', hyields⟩
  refine ends_bind.mpr (ends_map.mpr (ends_onPart.mpr (hcreate.imp ?_ ?_)))
  · intro out t' hout
    exact Volume.carry_ends (fun got out => yields_first hyields got out)
      (collects_second states hcollects) ⟨hs', hout⟩
  · exact fun _ _ hfailed hsure => hfailed hsure.2

end Beside

namespace MemoryStore

variable {t : MemoryStore} {name : String} {data : Bytes} {stamped : Bool}

-- An output of an open store, and what it was given.
def Receiving (name : String) (got : Bytes) (p : MemoryOutput × MemoryStore) : Prop :=
  p.2.closed = false ∧ (p.2.shelf true).Gathers name p.1 ∧ p.1.buffer = got

-- The store is open and has the file.
def Keeps (name : String) (data : Bytes) (t : MemoryStore) : Prop :=
  t.closed = false ∧ t.files[name]?.map (·.data) = some data

theorem shelf_calm_iff : (t.shelf true).calm = true ↔ t.closed = false := by
  simp only [shelf, Bool.true_and, Bool.not_eq_true']

theorem sink_collects (name : String) : sink.Collects (Receiving name) (Keeps name) True where
  write got part p hp := by
    obtain ⟨o, t⟩ := p
    obtain ⟨hopen, hgathers, rfl⟩ := hp
    refine (write_open true t hgathers.opened part).imp ?_ fun _ _ => False.elim
    intro _ q hwritten
    obtain ⟨o', t'⟩ := q
    obtain ⟨hshelf, rfl⟩ := hwritten
    have hshelf : t'.shelf true = t.shelf true := hshelf
    refine ⟨?_, ?_, rfl⟩
    · rw [← shelf_calm_iff, hshelf, shelf_calm_iff]
      exact hopen
    · rw [hshelf]
      exact hgathers.write part
  close got p hp := by
    obtain ⟨o, t⟩ := p
    obtain ⟨hopen, hgathers, rfl⟩ := hp
    refine (close_open true t hgathers.opened).imp ?_ fun _ _ => False.elim
    intro _ q hclosed
    obtain ⟨hshelf, _⟩ := hclosed
    obtain ⟨hcalm, hfile⟩ := hgathers.flushed
    rw [← hshelf] at hcalm hfile
    exact ⟨shelf_calm_iff.mp (hcalm.trans (shelf_calm_iff.mpr hopen)), hfile⟩

theorem create_receiving (hopen : t.closed = false) (stamped : Bool) (name : String)
    (purpose : Purpose) :
    Ends ((volume stamped).create name purpose) t
      (fun out t' => Receiving name ByteArray.empty (out, t')) (fun _ _ => ¬True) := by
  show Ends ((volume true).create name purpose) t _ _
  refine (create_open true hopen name purpose).imp ?_ fun _ _ => False.elim
  intro _ t' hcreated
  obtain ⟨hshelf, rfl⟩ := hcreated
  refine ⟨?_, ?_, rfl⟩
  · rw [← shelf_calm_iff, hshelf]
    exact shelf_calm_iff.mpr hopen
  · rw [hshelf]
    exact Shelf.gathers_new _ name

theorem Keeps.delivers (h : Keeps name data t) (stamped : Bool) :
    (volume stamped).Delivers feed name data t True := by
  obtain ⟨hopen, hkept⟩ := h
  obtain ⟨file, hfile, rfl⟩ := Option.map_eq_some_iff.mp hkept
  intro purpose
  simp only [volume, ends_bind]
  refine ends_requireOpen (ends_find (fun file' hfile' => ?_) fun hnone => ?_) fun hclosed _ => ?_
  · obtain rfl := Option.some.inj (hfile.symm.trans hfile')
    refine ⟨rfl, fun position len _ => ?_⟩
    simp only [feed, readAt, Delivery.ofFile]
    cases readPastEof name position len file.data.size <;> rfl
  · exact absurd (hfile.symm.trans hnone) (Option.some_ne_none file)
  · exact absurd hclosed (Bool.eq_false_iff.mp hopen)

end MemoryStore

end Blockwise
