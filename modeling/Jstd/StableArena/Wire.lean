import Jstd.StableArena.Refinement

/-!
# StableArena — wire form

The encoder writes the number of issued ids and the live `(index, payload)` pairs in dense order;
the decoder rebuilds the location table and rejects everything no arena encodes to.  Serde itself
is taken to carry the `(next_id, entries)` struct faithfully, so both sides work on `Wire`.

The decoder asks for the whole location table before it looks at an entry, so a `next_id` whose
table is larger than any object panics where the checks before it let it through.
-/

namespace Jstd
namespace StableArena

open Foundation

variable {Id T : Type}

/-- `StableArenaWire`. -/
structure Wire (T : Type) where
  nextId : Nat
  entries : List (Nat × T)
  deriving DecidableEq, Repr

/-- Why decoding does not return an arena: a `serde` error with its text, or a panic. -/
inductive WireError
  | custom (text : String)
  | panic (cause : Panic)
  deriving DecidableEq, Repr

/-- `Serialize::serialize`. -/
def encode [Identifier Id] (self : StableArena Id T) : Wire T :=
  { nextId := self.issuedLen
    entries := (self.slotIds.map intoUsize).zip self.values }

/-- One round of the decoder's loop. -/
def decodeEntry [Identifier Id] (nextId : Nat) (arena : StableArena Id T) (entry : Nat × T) :
    Except WireError (StableArena Id T) :=
  let raw := entry.1
  let id : Id := fromUsize raw
  if raw ≥ nextId then
    .error (.custom s!"StableArena live ID {raw} is outside next ID {nextId}")
  else if intoUsize id ≠ raw then
    .error (.custom s!"StableArena ID {raw} does not fit its backing type")
  else
    match Jstd.index arena.locations raw with
    | .error cause => .error (.panic cause)
    | .ok location =>
        if location ≠ DEAD then
          .error (.custom s!"StableArena contains duplicate live ID {raw}")
        else
          .ok
            { values := arena.values ++ [entry.2]
              slotIds := arena.slotIds ++ [id]
              locations := arena.locations.set raw arena.values.length }

/-- `for (raw, value) in entries`. -/
def decodeEntries [Identifier Id] (nextId : Nat) :
    StableArena Id T → List (Nat × T) → Except WireError (StableArena Id T)
  | arena, [] => .ok arena
  | arena, entry :: rest =>
      match decodeEntry nextId arena entry with
      | .error e => .error e
      | .ok arena' => decodeEntries nextId arena' rest

/-- `next_id.checked_sub(1)` is an index the identifier type cannot represent. -/
def exceedsBacking (Id : Type) [Identifier Id] (nextId : Nat) : Bool :=
  match nextId with
  | 0 => false
  | lastIssued + 1 => !decide (RoundTrips Id lastIssued)

/-- `Deserialize::deserialize`. -/
def decode [Identifier Id] (w : Wire T) : Except WireError (StableArena Id T) :=
  if w.nextId = DEAD then
    .error (.custom "StableArena next ID exhausts the location sentinel")
  else if exceedsBacking Id w.nextId then
    .error (.custom s!"StableArena next ID {w.nextId} exceeds its backing type")
  else
    match vecOf usizeBytes DEAD w.nextId with
    | .error cause => .error (.panic cause)
    | .ok locations =>
        decodeEntries w.nextId { values := [], slotIds := [], locations := locations } w.entries

/-! ## The encoder determines the arena -/

theorem encode_entries_fst [Identifier Id] {a : StableArena Id T} (hI : a.Inv) :
    (encode a).entries.map Prod.fst = a.slotIds.map intoUsize := by
  simp only [encode]
  exact List.map_fst_zip (by simp [hI.slots_len])

theorem encode_entries_snd [Identifier Id] {a : StableArena Id T} (hI : a.Inv) :
    (encode a).entries.map Prod.snd = a.values := by
  simp only [encode]
  exact List.map_snd_zip (by simp [hI.slots_len])

theorem Inv.slotIds_eq [Identifier Id] {a : StableArena Id T} (hI : a.Inv) :
    (a.slotIds.map intoUsize).map fromUsize = a.slotIds := by
  rw [List.map_map]
  conv_rhs => rw [← List.map_id a.slotIds]
  apply List.map_congr_left
  intro id hid
  obtain ⟨slot, hslot⟩ := List.mem_iff_getElem?.1 hid
  exact (hI.location_of_slot hslot).1

/-- A live location of one arena is the location of every arena with the same slot identifiers. -/
theorem Inv.location_of_slotIds_eq [Identifier Id] {a b : StableArena Id T} (ha : a.Inv)
    (hb : b.Inv) (hslots : a.slotIds = b.slotIds) {raw slot : Nat}
    (hloc : a.locations[raw]? = some slot) (hlive : slot ≠ DEAD) :
    b.locations[raw]? = some slot := by
  have hid := ha.slot_of_location hloc hlive
  rw [hslots] at hid
  have hrt : intoUsize (fromUsize raw : Id) = raw :=
    ha.roundTrips (List.getElem?_eq_some_iff.1 hloc).1
  have hb' := (hb.location_of_slot hid).2
  rwa [hrt] at hb'

theorem Inv.eq_of_encode_eq [Identifier Id] {a b : StableArena Id T} (ha : a.Inv) (hb : b.Inv)
    (h : encode a = encode b) : a = b := by
  have hvalues : a.values = b.values := by
    rw [← encode_entries_snd ha, ← encode_entries_snd hb, h]
  have hslots : a.slotIds = b.slotIds := by
    rw [← ha.slotIds_eq, ← hb.slotIds_eq, ← encode_entries_fst ha, ← encode_entries_fst hb, h]
  have hlen : a.locations.length = b.locations.length := congrArg Wire.nextId h
  have hlocations : a.locations = b.locations := by
    apply List.ext_getElem?
    intro raw
    cases hla : a.locations[raw]? with
    | none =>
        have := List.getElem?_eq_none_iff.1 hla
        rw [List.getElem?_eq_none (by omega)]
    | some slot =>
        by_cases hlive : slot = DEAD
        · have hraw := (List.getElem?_eq_some_iff.1 hla).1
          cases hlb : b.locations[raw]? with
          | none =>
              have := List.getElem?_eq_none_iff.1 hlb
              omega
          | some slot' =>
              by_cases hlive' : slot' = DEAD
              · rw [hlive, hlive']
              · have := hb.location_of_slotIds_eq ha hslots.symm hlb hlive'
                rw [hla] at this
                exact this
        · exact (ha.location_of_slotIds_eq hb hslots hla hlive).symm
  rcases a with ⟨values, slotIds, locations⟩
  rcases b with ⟨values', slotIds', locations'⟩
  simp only at hvalues hslots hlocations
  rw [hvalues, hslots, hlocations]

/-! ## One round of the decoder -/

/-- An index is dead exactly when no entry so far carries it. -/
theorem Inv.dead_iff_not_mem [Identifier Id] {a : StableArena Id T} (hI : a.Inv) {raw : Nat}
    (hraw : raw < a.locations.length) :
    a.locations[raw]? = some DEAD ↔ raw ∉ (encode a).entries.map Prod.fst := by
  rw [encode_entries_fst hI]
  constructor
  · intro hdead hmem
    obtain ⟨id, hid, hinto⟩ := List.mem_map.1 hmem
    obtain ⟨slot, hslot⟩ := List.mem_iff_getElem?.1 hid
    have hloc := (hI.location_of_slot hslot).2
    rw [hinto, hdead] at hloc
    have hlt := (List.getElem?_eq_some_iff.1 hslot).1
    rw [hI.slots_len] at hlt
    have := hI.values_len
    have := Option.some.inj hloc
    omega
  · intro hmem
    by_contra hdead
    have hloc : a.locations[raw]? = some a.locations[raw] := List.getElem?_eq_getElem hraw
    have hlive : a.locations[raw] ≠ DEAD := by
      intro h
      rw [h] at hloc
      exact hdead hloc
    have hid := hI.slot_of_location hloc hlive
    exact hmem (List.mem_map.2 ⟨_, List.mem_of_getElem? hid, hI.roundTrips hraw⟩)

/-- Writing a payload under a dead index keeps the invariant and appends one wire entry. -/
theorem Inv.insert_dead [Identifier Id] {a : StableArena Id T} (hI : a.Inv) {raw : Nat}
    (hdead : a.locations[raw]? = some DEAD) (v : T) :
    let a' : StableArena Id T :=
      { values := a.values ++ [v]
        slotIds := a.slotIds ++ [fromUsize raw]
        locations := a.locations.set raw a.values.length }
    a'.Inv ∧ encode a' =
      { nextId := (encode a).nextId, entries := (encode a).entries ++ [(raw, v)] } := by
  have hraw := (List.getElem?_eq_some_iff.1 hdead).1
  have hrt : intoUsize (fromUsize raw : Id) = raw := hI.roundTrips hraw
  -- A dead index leaves room: not every issued index is live.
  have hroom : a.values.length < a.locations.length := by
    have hlen : a.values.length = a.abs.countP Option.isSome := hI.len_eq
    have hle := List.countP_le_length (p := Option.isSome) (l := a.abs)
    rw [abs_length] at hle
    refine lt_of_le_of_ne (by omega) ?_
    intro hfull
    have hall : a.abs.countP Option.isSome = a.abs.length := by
      rw [abs_length]
      omega
    have hmem : (none : Option T) ∈ a.abs := by
      apply List.mem_iff_getElem?.2
      exact ⟨raw, by rw [abs_getElem?, hdead, Option.map_some, hI.values_dead]⟩
    have := List.countP_eq_length.1 hall none hmem
    cases this
  refine ⟨?_, ?_⟩
  · exact
      { slots_len := by simp [hI.slots_len]
        values_len := by
          have := hI.issued_len
          simp only [List.length_append, List.length_singleton]
          omega
        issued_len := by simpa using hI.issued_len
        roundTrips := by
          intro i hi
          exact hI.roundTrips (by simpa using hi)
        location_of_slot := by
          intro slot id hid
          rw [List.getElem?_append] at hid
          split at hid
          · obtain ⟨hfrom, hloc⟩ := hI.location_of_slot hid
            have hlt := (List.getElem?_eq_some_iff.1 hid).1
            rw [hI.slots_len] at hlt
            have hne : raw ≠ intoUsize id := by
              rintro rfl
              have := hI.values_len
              have := Option.some.inj (hdead.symm.trans hloc)
              omega
            exact ⟨hfrom, by rw [List.getElem?_set_ne hne]; exact hloc⟩
          · rw [List.getElem?_singleton] at hid
            split at hid
            · obtain rfl := Option.some.inj hid
              refine ⟨by rw [hrt], ?_⟩
              have hslot : slot = a.values.length := by
                have := hI.slots_len
                omega
              rw [hrt, hslot, List.getElem?_set_self hraw]
            · cases hid
        slot_of_location := by
          intro i slot hloc hlive
          rw [List.getElem?_set] at hloc
          split at hloc
          · rename_i hi
            subst hi
            obtain rfl := Option.some.inj hloc
            simp [← hI.slots_len]
          · have hid := hI.slot_of_location hloc hlive
            have hlt := (List.getElem?_eq_some_iff.1 hid).1
            rw [List.getElem?_append_left hlt]
            exact hid }
  · have hzip : ((a.slotIds ++ [fromUsize raw]).map intoUsize).zip (a.values ++ [v]) =
        (a.slotIds.map intoUsize).zip a.values ++ [(raw, v)] := by
      rw [List.map_append, List.zip_append (by simp [hI.slots_len])]
      simp [hrt]
    simp only [encode, issuedLen, List.length_set, hzip]

theorem Inv.decodeEntry_ok [Identifier Id] {a : StableArena Id T} (hI : a.Inv)
    {entry : Nat × T} (hlt : entry.1 < a.locations.length)
    (hnew : entry.1 ∉ (encode a).entries.map Prod.fst) :
    ∃ a', decodeEntry a.locations.length a entry = .ok a' ∧ a'.Inv ∧
      encode a' = { nextId := (encode a).nextId, entries := (encode a).entries ++ [entry] } := by
  have hdead := (hI.dead_iff_not_mem hlt).2 hnew
  have hrt : intoUsize (fromUsize entry.1 : Id) = entry.1 := hI.roundTrips hlt
  obtain ⟨hI', henc⟩ := hI.insert_dead hdead entry.2
  refine ⟨_, ?_, hI', henc⟩
  have hge : ¬ entry.1 ≥ a.locations.length := by omega
  simp [decodeEntry, hge, hrt, index_of_getElem? hdead]

/-- What a successful round has checked. -/
theorem Inv.decodeEntry_inv [Identifier Id] {a a' : StableArena Id T} (hI : a.Inv)
    {entry : Nat × T} (h : decodeEntry a.locations.length a entry = .ok a') :
    entry.1 < a.locations.length ∧ entry.1 ∉ (encode a).entries.map Prod.fst := by
  unfold decodeEntry at h
  simp only at h
  split at h
  · cases h
  · rename_i hge
    have hlt : entry.1 < a.locations.length := by omega
    refine ⟨hlt, (hI.dead_iff_not_mem hlt).1 ?_⟩
    split at h
    · cases h
    · have hloc : a.locations[entry.1]? = some a.locations[entry.1] :=
        List.getElem?_eq_getElem hlt
      rw [index_of_getElem? hloc] at h
      simp only at h
      split at h
      · cases h
      · rename_i hdead
        rw [hloc]
        simpa using hdead

/-! ## The whole decoder -/

/-- The remaining entries are well formed for what has been decoded so far. -/
def Fresh (nextId : Nat) (seen rest : List (Nat × T)) : Prop :=
  ((seen ++ rest).map Prod.fst).Nodup ∧ ∀ e ∈ rest, e.1 < nextId

/-- The loop accepts exactly fresh entries, and what it then returns encodes to all of them. -/
theorem Inv.decodeEntries_spec [Identifier Id] (rest : List (Nat × T)) :
    ∀ {a : StableArena Id T}, a.Inv → ((encode a).entries.map Prod.fst).Nodup →
      (Fresh a.locations.length (encode a).entries rest ↔
        ∃ b, decodeEntries a.locations.length a rest = .ok b) ∧
      ∀ b, decodeEntries a.locations.length a rest = .ok b →
        b.Inv ∧ encode b =
          { nextId := a.locations.length, entries := (encode a).entries ++ rest } := by
  induction rest with
  | nil =>
      intro a hI hnodup
      refine ⟨⟨fun _ => ⟨a, rfl⟩, fun _ => ⟨by simpa using hnodup, by simp⟩⟩, ?_⟩
      intro b hb
      cases hb
      exact ⟨hI, by simp [encode, issuedLen]⟩
  | cons entry rest ih =>
      intro a hI hnodup
      by_cases hgood : entry.1 < a.locations.length ∧
          entry.1 ∉ (encode a).entries.map Prod.fst
      · obtain ⟨a', hstep, hI', henc⟩ := hI.decodeEntry_ok hgood.1 hgood.2
        have hlen : a'.locations.length = a.locations.length := congrArg Wire.nextId henc
        have hentries : (encode a').entries = (encode a).entries ++ [entry] :=
          congrArg Wire.entries henc
        have hnodup' : ((encode a').entries.map Prod.fst).Nodup := by
          rw [hentries, List.map_append, List.nodup_append]
          refine ⟨hnodup, by simp, ?_⟩
          intro x hx y hy
          simp only [List.map_cons, List.map_nil, List.mem_singleton] at hy
          rintro rfl
          exact hgood.2 (hy ▸ hx)
        obtain ⟨hiff, hres⟩ := ih hI' hnodup'
        rw [hlen, hentries] at hiff hres
        simp only [decodeEntries, hstep]
        refine ⟨?_, ?_⟩
        · rw [← hiff]
          simp only [Fresh, List.append_assoc, List.singleton_append, List.forall_mem_cons]
          exact ⟨fun h => ⟨h.1, h.2.2⟩, fun h => ⟨h.1, hgood.1, h.2⟩⟩
        · intro b hb
          obtain ⟨hIb, hencb⟩ := hres b hb
          exact ⟨hIb, by simpa using hencb⟩
      · -- A bad entry stops the loop, and nothing after it can mend the list.
        have hfail : ∃ e, decodeEntry a.locations.length a entry = .error e := by
          cases h : decodeEntry a.locations.length a entry with
          | error e => exact ⟨e, rfl⟩
          | ok a' => exact absurd (hI.decodeEntry_inv h) hgood
        obtain ⟨e, hfail⟩ := hfail
        simp only [decodeEntries, hfail]
        refine ⟨⟨?_, ?_⟩, ?_⟩
        · intro hfresh
          refine absurd ⟨hfresh.2 entry (by simp), ?_⟩ hgood
          have hdisj := (List.nodup_append.1 (by
            rw [← List.map_append]
            exact hfresh.1)).2.2
          intro hmem
          exact hdisj _ hmem _ (by simp) rfl
        · rintro ⟨b, hb⟩
          cases hb
        · intro b hb
          cases hb

/-- The location table the decoder starts from. -/
theorem blank_inv [LightWrapper Id] {nextId : Nat} (hle : nextId ≤ DEAD)
    (hrt : ∀ last, nextId = last + 1 → RoundTrips Id last) :
    ({ values := [], slotIds := [], locations := List.replicate nextId DEAD } :
      StableArena Id T).Inv where
  slots_len := rfl
  values_len := Nat.zero_le _
  issued_len := by simpa using hle
  roundTrips := by
    intro raw hraw
    have hraw' : raw < nextId := by simpa using hraw
    exact LightWrapper.roundTrips_of_le (show raw ≤ nextId - 1 by omega)
      (hrt (nextId - 1) (by omega))
  location_of_slot := by
    intro slot id hid
    simp at hid
  slot_of_location := by
    intro raw slot hloc hlive
    rw [List.getElem?_replicate] at hloc
    split at hloc
    · exact absurd (Option.some.inj hloc).symm hlive
    · cases hloc

/-- What the checks of the decoder ask of a wire value. -/
def Wire.WellFormed (Id : Type) [Identifier Id] (w : Wire T) : Prop :=
  w.nextId ≠ usizeMax ∧ (∀ last, w.nextId = last + 1 → RoundTrips Id last) ∧
    (w.entries.map Prod.fst).Nodup ∧ ∀ e ∈ w.entries, e.1 < w.nextId

theorem exceedsBacking_eq_false [Identifier Id] {nextId : Nat} :
    exceedsBacking Id nextId = false ↔ ∀ last, nextId = last + 1 → RoundTrips Id last := by
  cases nextId with
  | zero => simp [exceedsBacking]
  | succ last => simp [exceedsBacking]

/-- The two parts of `decode_spec` at a value the decoder rejects. -/
theorem rejected_spec {e : WireError} {P : Prop} {Q : StableArena Id T → Prop} (hP : ¬ P) :
    ((∃ a : StableArena Id T, (.error e : Except WireError (StableArena Id T)) = .ok a) ↔ P) ∧
      ∀ a : StableArena Id T, (.error e : Except WireError (StableArena Id T)) = .ok a → Q a := by
  refine ⟨⟨?_, fun h => absurd h hP⟩, ?_⟩
  · rintro ⟨a, ha⟩
    cases ha
  · intro a ha
    cases ha

theorem decode_spec [LightWrapper Id] {w : Wire T} (hw : w.nextId ≤ usizeMax) :
    ((∃ a : StableArena Id T, decode w = .ok a) ↔
        w.WellFormed Id ∧ w.nextId * usizeBytes ≤ isizeMax) ∧
      ∀ a : StableArena Id T, decode w = .ok a → a.Inv ∧ encode a = w := by
  unfold decode
  by_cases hdead : w.nextId = DEAD
  · rw [if_pos hdead]
    exact rejected_spec fun h => h.1.1 hdead
  · rw [if_neg hdead]
    cases hback : exceedsBacking Id w.nextId with
    | true =>
        rw [if_pos rfl]
        apply rejected_spec
        rintro ⟨⟨-, hrt, -⟩, -⟩
        rw [exceedsBacking_eq_false.2 hrt] at hback
        cases hback
    | false =>
        have hrt := exceedsBacking_eq_false.1 hback
        simp only [Bool.false_eq_true, if_false]
        rcases Nat.lt_or_ge isizeMax (w.nextId * usizeBytes) with hover | hfits
        · rw [vecOf_of_lt hover]
          exact rejected_spec fun h => absurd h.2 (Nat.not_le_of_lt hover)
        · rw [vecOf_of_le hfits]
          -- An arena with every identifier issued and none live is the base of the loop.
          have hblank :
              ({ values := [], slotIds := [], locations := List.replicate w.nextId DEAD } :
                StableArena Id T).Inv := blank_inv hw hrt
          obtain ⟨hiff, hres⟩ := Inv.decodeEntries_spec w.entries hblank (by simp [encode])
          simp only [List.length_replicate] at hiff hres
          refine ⟨?_, ?_⟩
          · rw [← hiff]
            simp only [Fresh, encode, List.map_nil, List.zip_nil_left, List.nil_append]
            exact ⟨fun h => ⟨⟨hdead, hrt, h.1, h.2⟩, hfits⟩, fun h => ⟨h.1.2.2.1, h.1.2.2.2⟩⟩
          · intro a ha
            obtain ⟨hI, henc⟩ := hres a ha
            refine ⟨hI, ?_⟩
            rw [henc]
            simp [encode]

/-- Past the largest table neither check before the allocation stops a well-formed value. -/
theorem decode_overflow [Identifier Id] {w : Wire T} (hwf : w.WellFormed Id)
    (hover : isizeMax < w.nextId * usizeBytes) :
    (decode w : Except WireError (StableArena Id T)) = .error (.panic .capacityOverflow) := by
  have hdead : ¬ w.nextId = DEAD := hwf.1
  have hback : exceedsBacking Id w.nextId = false := exceedsBacking_eq_false.2 hwf.2.1
  simp [decode, hdead, hback, vecOf_of_lt hover]

/-! ## Reachable arenas -/

/-- The arenas the public operations can produce, decoding included. -/
inductive Reachable [Identifier Id] : StableArena Id T → Prop
  | empty : Reachable empty
  | step {a : StableArena Id T} (op : Op Id T) : Reachable a → Reachable (StableArena.step op a).2
  | decode {a : StableArena Id T} (w : Wire T) :
      w.nextId ≤ usizeMax → StableArena.decode w = .ok a → Reachable a

theorem Reachable.inv [LightWrapper Id] {a : StableArena Id T} (h : Reachable a) : a.Inv := by
  induction h with
  | empty => exact empty_inv
  | step op _ ih => exact (ih.step_spec op).2.1
  | decode w hw hdec => exact ((decode_spec hw).2 _ hdec).1

/-- What an arena encodes to is well formed, unless the location sentinel has been issued. -/
theorem Inv.encode_wellFormed [Identifier Id] {a : StableArena Id T} (hI : a.Inv)
    (hlen : a.issuedLen < usizeMax) : (encode a).WellFormed Id := by
  refine ⟨Nat.ne_of_lt hlen, ?_, ?_, ?_⟩
  · intro last hlast
    have : a.locations.length = last + 1 := hlast
    exact hI.roundTrips (by omega)
  · rw [encode_entries_fst hI]
    refine List.Nodup.of_map (f := fun raw => (fromUsize raw : Id)) ?_
    rw [hI.slotIds_eq]
    exact hI.slotIds_nodup
  · intro e he
    have hmem : e.1 ∈ a.slotIds.map intoUsize := by
      rw [← encode_entries_fst hI]
      exact List.mem_map_of_mem he
    obtain ⟨id, hid, hinto⟩ := List.mem_map.1 hmem
    obtain ⟨slot, hslot⟩ := List.mem_iff_getElem?.1 hid
    have hloc := (hI.location_of_slot hslot).2
    rw [hinto] at hloc
    exact (List.getElem?_eq_some_iff.1 hloc).1

/-- Encoder and decoder are inverse as far as the location table fits an object.  Decoding what a
reachable arena encodes to gives that arena back exactly up to that bound; the decoder accepts
exactly the well-formed wire values unless the value is well formed and past the bound, and there it
panics; and whatever it accepts satisfies the representation invariant and encodes to the same
value. -/
theorem encode_decode_inverse_iff [LightWrapper Id] :
    (∀ a : StableArena Id T, Reachable a → a.issuedLen < usizeMax →
      (decode (encode a) = .ok a ↔ a.issuedLen * usizeBytes ≤ isizeMax)) ∧
    (∀ w : Wire T, w.nextId ≤ usizeMax →
      (((∃ a : StableArena Id T, decode w = .ok a) ↔ w.WellFormed Id) ↔
        (w.WellFormed Id → w.nextId * usizeBytes ≤ isizeMax))) ∧
    (∀ w : Wire T, w.WellFormed Id → isizeMax < w.nextId * usizeBytes →
      (decode w : Except WireError (StableArena Id T)) = .error (.panic .capacityOverflow)) ∧
    ∀ (w : Wire T) (a : StableArena Id T), w.nextId ≤ usizeMax → decode w = .ok a →
      a.Inv ∧ encode a = w := by
  refine ⟨?_, ?_, fun w => decode_overflow, fun w a hw => (decode_spec hw).2 a⟩
  · intro a hreach hlen
    have hI := hreach.inv
    have hle : (encode a).nextId ≤ usizeMax := Nat.le_of_lt hlen
    constructor
    · intro hdec
      exact ((decode_spec hle).1.1 ⟨a, hdec⟩).2
    · intro hfits
      obtain ⟨b, hb⟩ := (decode_spec hle).1.2 ⟨hI.encode_wellFormed hlen, hfits⟩
      obtain ⟨hIb, henc⟩ := (decode_spec hle).2 b hb
      rw [hb, hIb.eq_of_encode_eq hI henc]
  · intro w hw
    rw [(decode_spec hw).1]
    constructor
    · intro hiff hwf
      exact (hiff.2 hwf).2
    · intro hfits
      exact ⟨And.left, fun hwf => ⟨hwf, hfits hwf⟩⟩

/-- The four parts at work: a `u32`-backed arena with a hole survives the round trip, a duplicate
live id is rejected, and a table of `2^60` ids, which only `usize`-backed ids reach, panics. -/
theorem encode_decode_inverse_iff_u32 :
    let a : StableArena (DerivedId .u32) Nat :=
      (step (.remove ⟨0, by decide⟩) (step (.push 8) (step (.push 7) empty).2).2).2
    decode (encode a) = .ok a ∧ ¬ (∃ b : StableArena (DerivedId .u32) Nat,
      decode { nextId := 2, entries := [(0, 1), (0, 2)] } = .ok b) ∧
      encode a = { nextId := 2, entries := [(1, 8)] } ∧ a.Inv ∧
      (decode { nextId := 2 ^ 60, entries := [(3, 4)] } :
        Except WireError (StableArena (DerivedId .usize) Nat)) =
          .error (.panic .capacityOverflow) := by
  intro a
  have hreach : Reachable a := .step _ (.step _ (.step _ .empty))
  obtain ⟨hround, haccept, -, hreencode⟩ :=
    @encode_decode_inverse_iff (DerivedId .u32) Nat _
  obtain ⟨-, -, hover, -⟩ := @encode_decode_inverse_iff (DerivedId .usize) Nat _
  have hdec : decode (encode a) = .ok a := (hround a hreach (by decide)).2 (by decide)
  refine ⟨hdec, ?_, by decide, (hreencode _ a (by decide) hdec).1, ?_⟩
  · rw [(haccept _ (by decide)).2 (fun _ => by decide)]
    rintro ⟨-, -, hnodup, -⟩
    exact absurd hnodup (by decide)
  · refine hover _ ⟨by decide, ?_, by decide, by decide⟩ (by decide)
    intro last hlast
    have hlast' : 2 ^ 60 = last + 1 := hlast
    exact DerivedId.roundTrips_iff.2 (by rw [Backing.max, usizeMax]; omega)

/-- With `usize`-backed ids the value with `next_id = 2^60` and no entry is well formed, and the
decoder panics on it instead of accepting it. -/
theorem decode_wellFormed_panics :
    let w : Wire Nat := { nextId := 2 ^ 60, entries := [] }
    w.nextId < usizeMax ∧
      (decode w : Except WireError (StableArena (DerivedId .usize) Nat)) =
        .error (.panic .capacityOverflow) ∧
      ¬ ((∃ a : StableArena (DerivedId .usize) Nat, decode w = .ok a) ↔
        w.WellFormed (DerivedId .usize)) := by
  intro w
  have hwf : w.WellFormed (DerivedId .usize) := by
    refine ⟨by decide, ?_, List.nodup_nil, by simp [w]⟩
    intro last hlast
    have hlast' : 2 ^ 60 = last + 1 := hlast
    exact DerivedId.roundTrips_iff.2 (by rw [Backing.max, usizeMax]; omega)
  have hpanic : (decode w : Except WireError (StableArena (DerivedId .usize) Nat)) =
      .error (.panic .capacityOverflow) := decode_overflow hwf (by decide)
  refine ⟨by decide, hpanic, ?_⟩
  intro hiff
  obtain ⟨a, ha⟩ := hiff.2 hwf
  rw [hpanic] at ha
  cases ha

end StableArena
end Jstd
