import Blockwise.Proofs.Engine.Blind
import Blockwise.Proofs.Engine.Content

namespace Blockwise

namespace Engine

open Act

variable {K : Type} {m m' m₁ : Metered (Engine K)} {e : Engine K} {sizing : Sizing} {key k : K}
  {memory : Memory} {n offset len i : Nat} {data data' : Bytes}

-- The key whose store was the last to write a byte, for every place and offset.
abbrev Authors (K : Type) := Nat × Nat → Nat → Option K

-- Two calls that differ at most in the bytes stored under other keys than one.
inductive Alike (k : K) : Step K → Step K → Prop where
  | same (s : Step K) : Alike k s s
  | store (key : K) (offset : Nat) (data data' : Bytes) (hne : key ≠ k)
      (hsize : data'.size = data.size) : Alike k (.store key offset data) (.store key offset data')

-- Two answers to a fetch that may differ in some bytes and in nothing else.
def SameOn (own : Nat → Prop) : Except Breach (Option Bytes) → Except Breach (Option Bytes) → Prop
  | .error b, .error b' => b = b'
  | .ok none, .ok none => True
  | .ok (some bytes), .ok (some bytes') =>
    bytes.size = bytes'.size ∧ ∀ i, own i → bytes[i]? = bytes'[i]?
  | _, _ => False

-- Two engines that differ at most in bytes that other keys than one were the last to write.
structure Twins (k : K) (authors : Authors K) (m m' : Metered (Engine K)) : Prop where
  sound : m.part.Sound
  same : m' = withArena m m'.part.arena
  shaped : Shaped m.part.arena m'.part.arena
  agree : ∀ bank block i, i < m.part.arena.blockSize →
    (∀ author ∈ authors (bank, block) i, author = k) →
    m'.part.arena.byteAt bank block i = m.part.arena.byteAt bank block i

variable {authors : Authors K}

-- Moving keys about leaves twins as long as it moves the same ones.
theorem Twins.moved (h : Twins k authors m m') (hs : m₁.part.Sound)
    (harena : m₁.part.arena = m.part.arena) :
    Twins k authors m₁ (withArena m₁ m'.part.arena) := by
  refine ⟨hs, rfl, ?_, ?_⟩
  · rw [harena]
    exact h.shaped
  · rw [harena]
    exact h.agree

variable [DecidableEq K]

-- The block of a key, as a bank and a block of it.
def placeOf (e : Engine K) (key : K) : Option (Nat × Nat) := (e.index.peek key).map e.index.place

theorem Sound.placeOf_inj (hs : e.Sound) {key key' : K} {place : Nat × Nat}
    (h : e.placeOf key = some place) (h' : e.placeOf key' = some place) : key = key' := by
  obtain ⟨n, hn, rfl⟩ := Option.map_eq_some_iff.mp h
  obtain ⟨n', hn', hplace⟩ := Option.map_eq_some_iff.mp h'
  obtain rfl := hs.holds.place_inj (hs.mem_held hn) (hs.mem_held hn') hplace.symm
  exact hs.peek_inj hn hn'

-- A store that succeeds signs the bytes it writes. Nothing else touches a signature.
def sign (m : Metered (Engine K)) (s : Step K) (authors : Authors K) : Authors K :=
  match s, outcome (step s) m with
  | .store key offset data, (.ok (.flag true), m') => fun place i =>
    if m'.part.placeOf key = some place ∧ offset ≤ i ∧ i < offset + data.size then some key
    else authors place i
  | _, _ => authors

-- Who wrote the bytes of all blocks last, in a run from an engine that nobody has written to.
def authorsAfter (m : Metered (Engine K)) (authors : Authors K) : List (Step K) → Authors K
  | [] => authors
  | s :: steps => authorsAfter (afterStep m s) (sign m s authors) steps

def authorOf (e : Engine K) (authors : Authors K) (key : K) (i : Nat) : Option K :=
  (e.placeOf key).bind (authors · i)

theorem Twins.peek (h : Twins k authors m m') : m'.part.index.peek = m.part.index.peek := by
  rw [h.same]
  rfl

theorem Twins.store (h : Twins k authors m m') (hsize : data'.size = data.size)
    (hdata : key = k → data' = data) :
    Twins k (sign m (.store key offset data) authors) (afterStep m (.store key offset data))
      (afterStep m' (.store key offset data')) := by
  by_cases hrefused : m.part.arena.blockSize < offset + data.size
  · have hrefused' : m'.part.arena.blockSize < offset + data'.size := by
      rw [h.shaped.blockSize, hsize]
      exact hrefused
    simp only [sign, afterStep, outcome, step, Functor.map, EStateM.map, store_refused hrefused,
      store_refused hrefused']
    exact h
  have hfits : offset + data.size ≤ m.part.arena.blockSize := Nat.not_lt.mp hrefused
  obtain ⟨m₁, n, hp⟩ := store_placed h.sound key hfits
  obtain ⟨arena, hstep, hshaped, hbytes⟩ :=
    hp.written ⟨h.sound.holds.arena, rfl, rfl, rfl⟩ hfits
  have hp' : Placed key offset data'.size m m₁ n := hsize ▸ hp
  obtain ⟨arena', hstep', hshaped', hbytes'⟩ := hp'.written h.shaped (hsize ▸ hfits)
  rw [← h.same] at hstep'
  have hstep : step (.store key offset data) m = .ok (.flag true) (withArena m₁ arena) := hstep
  have hsound := (afterStep_sound h.sound (.store key offset data)).1
  simp only [afterStep, outcome, hstep] at hsound
  simp only [sign, afterStep, outcome, hstep, hstep']
  refine ⟨hsound, rfl, ⟨hshaped'.sound, ?_, ?_, ?_⟩, ?_⟩
  · exact hshaped'.blockSize.trans hshaped.blockSize.symm
  · exact hshaped'.blocksPerBank.trans hshaped.blocksPerBank.symm
  · exact hshaped'.banks.trans hshaped.banks.symm
  · intro bank block i hi hown
    have hi : i < m.part.arena.blockSize := hshaped.blockSize ▸ hi
    have hplace : placeOf (withArena m₁ arena).part key = some (m₁.part.index.place n) := by
      rw [placeOf]
      exact congrArg (Option.map m₁.part.index.place) hp.peek
    simp only [hplace, Option.some.injEq] at hown
    show arena'.byteAt bank block i = arena.byteAt bank block i
    rw [hbytes bank block i hi, hbytes' bank block i hi, hsize]
    split at hown
    · next hin =>
      rw [if_pos hin, if_pos hin, hdata (hown key rfl)]
    · next hout =>
      rw [if_neg hout, if_neg hout, h.agree bank block i hi hown]

-- A fetch moves its key in both engines alike, whichever key it is.
theorem Twins.fetch (h : Twins k authors m m') (key : K) (offset len : Nat) :
    SameOn (fun i => ∀ author ∈ m.part.authorOf authors key (offset + i), author = k)
        (outcome (fetch key offset len) m).1 (outcome (fetch key offset len) m').1 ∧
      Twins k authors (outcome (fetch key offset len) m).2 (outcome (fetch key offset len) m').2 := by
  have hsize := h.shaped.blockSize
  by_cases hrefused : m.part.arena.blockSize < offset + len
  · simp only [outcome, fetch_refused hrefused, fetch_refused (hsize.symm ▸ hrefused), hsize]
    exact ⟨rfl, h⟩
  have hfits : offset + len ≤ m.part.arena.blockSize := Nat.not_lt.mp hrefused
  cases hpeek : m.part.index.peek key with
  | none =>
    have hpeek' : m'.part.index.peek key = none := by rw [h.peek, hpeek]
    have hmiss : (⟨m'.part, m'.tally.miss⟩ : Metered (Engine K)) =
        withArena ⟨m.part, m.tally.miss⟩ m'.part.arena := by
      conv_lhs => rw [h.same]
      rfl
    have hfetch := fetch_absent h.sound.blockSize_lt hpeek hfits
    have hfetch' := fetch_absent (hsize.symm ▸ h.sound.blockSize_lt) hpeek' (hsize.symm ▸ hfits)
    simp only [outcome, hfetch, hfetch', hmiss]
    exact ⟨trivial, h.moved h.sound rfl⟩
  | some n =>
    obtain ⟨_, _, hfetch, rfl, bytes, rfl, hlength, hbytes⟩ :=
      (fetch_over h.sound hpeek hfits ⟨h.sound.holds.arena, rfl, rfl, rfl⟩).exists_ok
    obtain ⟨_, _, hfetch', rfl, bytes', rfl, hlength', hbytes'⟩ :=
      (fetch_over h.sound hpeek hfits h.shaped).exists_ok
    rw [← h.same] at hfetch'
    have hfetch : Engine.fetch key offset len m = _ := hfetch
    simp only [outcome, hfetch, hfetch']
    have hsound : (⟨m.part.front key n, m.tally.hit⟩ : Metered (Engine K)).part.Sound :=
      (h.sound.moved hpeek).sound
    refine ⟨⟨hlength.trans hlength'.symm, fun i hown => ?_⟩, h.moved hsound rfl⟩
    simp only [authorOf, placeOf, hpeek, Option.map_some, Option.bind_some] at hown
    by_cases hi : i < len
    · rw [hbytes i hi, hbytes' i hi]
      exact congrArg some (h.agree _ _ _ (by omega) hown).symm
    · rw [getElem?_neg bytes i (by omega), getElem?_neg bytes' i (by omega)]

theorem fetchWhole_eq (m : Metered (Engine K)) (key : K) (len : Nat) :
    fetchWhole key len m = if len ≠ m.part.arena.blockSize
      then .error (.wrongBufferSize m.part.arena.blockSize len) m else fetch key 0 len m := by
  have hunfold : Engine.fetchWhole key len m = (if len ≠ m.part.arena.blockSize
      then throw (.wrongBufferSize m.part.arena.blockSize len) else Engine.fetch key 0 len) m := by
    show (if len ≠ m.part.arena.blockSize then _ else _ : Run K (Option Bytes)) m = _
    split <;> rfl
  rw [hunfold]
  split <;> rfl

theorem Twins.fetchWhole (h : Twins k authors m m') (key : K) (len : Nat) :
    SameOn (fun i => ∀ author ∈ m.part.authorOf authors key i, author = k)
        (outcome (fetchWhole key len) m).1 (outcome (fetchWhole key len) m').1 ∧
      Twins k authors (outcome (fetchWhole key len) m).2 (outcome (fetchWhole key len) m').2 := by
  have hfetch := h.fetch key 0 len
  simp only [outcome, Nat.zero_add] at hfetch
  simp only [outcome, fetchWhole_eq, h.shaped.blockSize]
  by_cases hlen : len ≠ m.part.arena.blockSize
  · simp only [if_pos hlen]
    exact ⟨rfl, h⟩
  · simp only [if_neg hlen]
    exact hfetch

theorem afterStep_map {α : Type} {s : Step K} {x : Run K α} {g : α → Reply}
    (h : Engine.step s = g <$> x) (m : Metered (Engine K)) : afterStep m s = (outcome x m).2 := by
  rw [afterStep, h]
  simp only [outcome, Functor.map, EStateM.map]
  cases x m <;> rfl

-- Like calls leave twins.
theorem Twins.step (h : Twins k authors m m') {s s' : Step K} (halike : Alike k s s') :
    Twins k (sign m s authors) (afterStep m s) (afterStep m' s') := by
  cases halike with
  | store key offset data data' hne hsize => exact h.store hsize fun heq => absurd heq hne
  | same =>
    cases s with
    | store key offset data => exact h.store rfl fun _ => rfl
    | fetch key offset len =>
      rw [afterStep_map rfl, afterStep_map rfl]
      exact (h.fetch key offset len).2
    | fetchWhole key len =>
      rw [afterStep_map rfl, afterStep_map rfl]
      exact (h.fetchWhole key len).2
    | delete key =>
      obtain ⟨flag, m₁, hdelete, harena, _, hover⟩ := delete_over h.sound key
      have hsound := (afterStep_sound h.sound (.delete key)).1
      have hdelete' := hover m'.part.arena
      rw [← h.same] at hdelete'
      rw [afterStep_map rfl] at hsound ⊢
      rw [afterStep_map rfl]
      simp only [outcome, hdelete, hdelete'] at hsound ⊢
      exact h.moved hsound harena
    | contains key => exact h

theorem Twins.after {steps steps' : List (Step K)} (h : Twins k authors m m')
    (halike : List.Forall₂ (Alike k) steps steps') :
    Twins k (authorsAfter m authors steps) (after m steps) (after m' steps') := by
  induction halike generalizing m m' authors with
  | nil => exact h
  | cons hs _ ih => exact ih (h.step hs)

theorem peek_fetch (hs : m.part.Sound) (key : K) (offset len : Nat) :
    (outcome (fetch key offset len) m).2.part.index.peek = m.part.index.peek := by
  let same (m' : Metered (Engine K)) : Prop := m'.part.index.peek = m.part.index.peek
  suffices hends : Ends (fetch key offset len) m (fun _ => same) (fun _ => same) from hends.outcome
  refine (fetch_ends hs).imp ?_ fun _ m' hfailed => ?_
  · intro _ m' hdone
    obtain ⟨_, hfound⟩ := hdone
    split at hfound
    · obtain ⟨⟨n, hmoved⟩, _⟩ := hfound
      exact hmoved.peek
    · obtain ⟨rfl, _⟩ := hfound
      rfl
  · obtain ⟨_, _, rfl⟩ := hfailed
    rfl

-- A key that stays in the cache stays in its block.
theorem placeOf_afterStep (hs : m.part.Sound) (s : Step K)
    (hmem : key ∈ (afterStep m s).part.keys) (hmem' : key ∈ m.part.keys) :
    (afterStep m s).part.placeOf key = m.part.placeOf key := by
  have hframe := (afterStep_sound hs s).2
  suffices hpeek : (afterStep m s).part.index.peek key = m.part.index.peek key by
    obtain ⟨n, hn, hpeek'⟩ := hs.peek_of_mem hmem'
    rw [placeOf, placeOf, hpeek, hpeek', Option.map_some, Option.map_some,
      hframe.place n (hs.holds.live n hn).1]
  cases s with
  | store key' offset data =>
    by_cases hrefused : m.part.arena.blockSize < offset + data.size
    · rw [afterStep_map rfl, outcome, store_refused hrefused]
    · have hfits : offset + data.size ≤ m.part.arena.blockSize := Nat.not_lt.mp hrefused
      obtain ⟨m₁, n, hp⟩ := store_placed hs key' hfits
      obtain ⟨arena, hstep, _⟩ := hp.written ⟨hs.holds.arena, rfl, rfl, rfl⟩ hfits
      have hstep : step (.store key' offset data) m = .ok (.flag true) (withArena m₁ arena) := hstep
      rw [afterStep, outcome, hstep] at hmem ⊢
      exact hp.kept key hmem hmem'
  | fetch key' offset len =>
    rw [afterStep_map rfl, peek_fetch hs]
  | fetchWhole key' len =>
    rw [afterStep_map rfl]
    by_cases hlen : len ≠ m.part.arena.blockSize
    · rw [outcome, fetchWhole_eq, if_pos hlen]
    · have hfetch := peek_fetch hs key' 0 len
      rw [outcome, fetchWhole_eq, if_neg hlen]
      rw [outcome] at hfetch
      rw [hfetch]
  | delete key' =>
    obtain ⟨flag, m₁, hdelete, _, hpeek, _⟩ := delete_over hs key'
    rw [afterStep_map rfl, outcome, hdelete] at hmem ⊢
    exact hpeek key hmem
  | contains key' => rfl

-- What is on record for a key was written by a store to that key.
def Signed (m : Metered (Engine K)) (ledger : Ledger K) (authors : Authors K) : Prop :=
  ∀ key i, (ledger key i).isSome = true → m.part.authorOf authors key i = some key

theorem step_signed (hs : m.part.Sound) {ledger : Ledger K} (hrec : Recorded m ledger)
    (hsigned : Signed m ledger authors) (s : Step K) :
    Signed (afterStep m s) (record m s ledger) (sign m s authors) := by
  intro key i hsome
  have hs' := (afterStep_sound hs s).1
  by_cases hmem : key ∈ (afterStep m s).part.keys
  case neg =>
    rw [record_absent hmem] at hsome
    cases hsome
  obtain ⟨n, _, hpeek⟩ := hs'.peek_of_mem hmem
  have hplace : (afterStep m s).part.placeOf key = some ((afterStep m s).part.index.place n) := by
    rw [placeOf, hpeek, Option.map_some]
  rw [authorOf, hplace, Option.bind_some]
  -- a byte that was on record before is signed where it was
  have hold : (ledger key i).isSome = true →
      authors ((afterStep m s).part.index.place n) i = some key := by
    intro hledger
    obtain ⟨byte, hbyte⟩ := Option.isSome_iff_exists.mp hledger
    have hauthor := hsigned key i hledger
    rwa [authorOf, ← placeOf_afterStep hs s hmem (hrec key i byte hbyte).1, hplace] at hauthor
  have hcontains : (outcome (step s) m).2.part.contains key = true := by
    rw [contains, Recency.contains_eq]
    exact decide_eq_true hmem
  simp only [record, hcontains, if_true] at hsome
  cases s with
  | store key' offset data =>
    rcases hout : outcome (step (.store key' offset data)) m with ⟨answer, m'⟩
    have hafter : afterStep m (.store key' offset data) = m' := by rw [afterStep, hout]
    simp only [hout, hafter] at hsome hold hplace hs'
    simp only [sign, hout, hafter]
    obtain _ | (_ | _) | ⟨_, _⟩ := answer
    case ok.flag.true =>
      dsimp only at hsome ⊢
      by_cases hin : m'.part.placeOf key' = some (m'.part.index.place n) ∧ offset ≤ i ∧
          i < offset + data.size
      · rw [if_pos hin, hs'.placeOf_inj hin.1 hplace]
      · rw [if_neg hin]
        refine hold ?_
        rwa [if_neg] at hsome
        rintro ⟨rfl, hrange⟩
        exact hin ⟨hplace, hrange⟩
    all_goals exact hold hsome
  | _ => exact hold hsome

theorem signed_after (hs : m.part.Sound) {ledger : Ledger K} (hrec : Recorded m ledger)
    (hsigned : Signed m ledger authors) (steps : List (Step K)) :
    Signed (after m steps) (ledgerAfter m ledger steps) (authorsAfter m authors steps) := by
  induction steps generalizing m ledger authors with
  | nil => exact hsigned
  | cons s steps ih =>
    exact ih (afterStep_sound hs s).1 (step_recorded hs hrec s) (step_signed hs hrec hsigned s)

-- Two runs from a fresh engine that differ in the bytes stored under other keys. A fetch hits in both
-- or in neither, and returns the same bytes wherever no other key was the last to write; among them
-- are all bytes that were stored under the key since it came into the cache.
theorem fetch_sameOn_after (h : new sizing memory = .ok e) {steps steps' : List (Step K)}
    (halike : List.Forall₂ (Alike k) steps steps') (offset len : Nat) :
    let m := after ⟨e, {}⟩ steps
    let m' := after ⟨e, {}⟩ steps'
    let author := m.part.authorOf (authorsAfter ⟨e, {}⟩ (fun _ _ => none) steps) k
    SameOn (fun i => ∀ key ∈ author (offset + i), key = k)
        (outcome (fetch k offset len) m).1 (outcome (fetch k offset len) m').1 ∧
      SameOn (fun i => ∀ key ∈ author i, key = k)
        (outcome (fetchWhole k len) m).1 (outcome (fetchWhole k len) m').1 ∧
      ∀ i, (lastStored ⟨e, {}⟩ steps k i).isSome = true → author i = some k := by
  intro m m' author
  have hs : (⟨e, {}⟩ : Metered (Engine K)).part.Sound := (new_sound h).1
  have hfresh : Twins k (fun _ _ => none) ⟨e, {}⟩ ⟨e, {}⟩ :=
    ⟨hs, rfl, ⟨hs.holds.arena, rfl, rfl, rfl⟩, fun _ _ _ _ _ => rfl⟩
  have htwins := hfresh.after halike
  refine ⟨(htwins.fetch k offset len).1, (htwins.fetchWhole k len).1, fun i hsome => ?_⟩
  have hempty : Recorded ⟨e, {}⟩ (fun _ _ => none : Ledger K) := fun _ _ _ h => nomatch h
  exact signed_after hs hempty (fun _ _ h => nomatch h) steps k i hsome

-- A key comes into a block that was another's and stores one byte of two. The second byte is still
-- the other's, and may differ.
theorem fetch_sameOn_after_reuse : ∃ e : Engine Nat, new (.ofLayout 1 3 2) = .ok e ∧
    let steps (a b : UInt8) : List (Step Nat) := [.store 1 0 ⟨#[a, b]⟩, .store 2 1 ⟨#[b]⟩,
      .delete 1, .store 0 0 ⟨#[9]⟩]
    let m := after ⟨e, {}⟩ (steps 1 2)
    let m' := after ⟨e, {}⟩ (steps 3 4)
    let author := m.part.authorOf (authorsAfter ⟨e, {}⟩ (fun _ _ => none) (steps 1 2)) 0
    List.Forall₂ (Alike 0) (steps 1 2) (steps 3 4) ∧
    (List.range 2).map author = [some 0, some 1] ∧
    SameOn (fun i => ∀ key ∈ author (0 + i), key = 0)
      (outcome (fetch 0 0 2) m).1 (outcome (fetch 0 0 2) m').1 := by
  have halike : List.Forall₂ (Alike 0)
      [Step.store 1 0 ⟨#[1, 2]⟩, .store 2 1 ⟨#[2]⟩, .delete 1, .store 0 0 ⟨#[9]⟩]
      [Step.store 1 0 ⟨#[3, 4]⟩, .store 2 1 ⟨#[4]⟩, .delete 1, .store 0 0 ⟨#[9]⟩] :=
    .cons (.store 1 0 _ _ (by decide) rfl) (.cons (.store 2 1 _ _ (by decide) rfl)
      (.cons (.same _) (.cons (.same _) .nil)))
  exact ⟨_, rfl, halike, by decide +kernel,
    (fetch_sameOn_after (show new (.ofLayout 1 3 2) = _ from rfl) halike 0 2).1⟩

-- Whatever is said of two runs that differ in the bytes stored under other keys, their fetches need
-- not return the same: a key that stores less than a block shows what the block held before.
theorem fetch_ne_after_reuse : ¬∀ (sizing : Sizing) (e : Engine Nat) (k : Nat)
    (steps steps' : List (Step Nat)) (offset len : Nat), new sizing = .ok e →
    List.Forall₂ (Alike k) steps steps' →
    (outcome (fetch k offset len) (after ⟨e, {}⟩ steps)).1 =
      (outcome (fetch k offset len) (after ⟨e, {}⟩ steps')).1 := by
  intro h
  have hsame := h (.ofLayout 1 2 2) _ 0 [.store 1 0 ⟨#[0, 0]⟩, .delete 1, .store 0 0 ⟨#[9]⟩]
    [.store 1 0 ⟨#[1, 1]⟩, .delete 1, .store 0 0 ⟨#[9]⟩] 0 2 rfl
    (.cons (.store 1 0 _ _ (by decide) rfl) (.cons (.same _) (.cons (.same _) .nil)))
  have hbyte := congrArg (fun answer => answer.toOption.join.bind fun bytes => bytes[1]?) hsame
  revert hbyte
  decide +kernel

end Engine

end Blockwise
