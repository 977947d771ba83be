import ReactiveReach.Proofs.Bytes
import ReactiveReach.Proofs.Forms
import ReactiveReach.Proofs.Instants
import ReactiveReach.Proofs.Results
import ReactiveReach.Samples.Configurations
import ReactiveReach.Samples.Snapshot
import ReactiveReach.Stored.Checkpoint

/-!
# Checkpoints that were written as bytes

The bytes of a checkpoint are read to their end and no further. So bytes that follow do not matter,
and a checkpoint that was cut short is never taken for another one, nor refused for its version,
although the version comes first.
-/

namespace ReactiveReach

open Bytes (Delimits)

namespace Storable

/-- Values that can be written as bytes are read back from them, and from no part of them. -/
def ReadBackFromBytes (V : Type) [Storable V] : Prop :=
  ∀ (value : V) (form : List UInt8), valueToBytes? value = some form →
    Delimits readValue form value

theorem readBackFromBytes_term : ReadBackFromBytes Samples.Term := by
  intro term form written
  by_cases unstorable : term = .unstorable
  · simp [valueToBytes?, unstorable] at written
  · have textWritten : Bytes.text? term.text = some form := by
      simpa [valueToBytes?, unstorable] using written
    exact (Bytes.delimits_text textWritten).map Samples.Term.mk

theorem readBackFromBytes_configurations : ReadBackFromBytes Samples.Configurations := by
  intro set form written
  obtain ⟨forms, namesWritten, sequenceWritten⟩ := Option.bind_eq_some_iff.mp written
  have each : List.Forall₂ (Delimits Bytes.readText) forms set.toList :=
    ((mapM_eq_some_iff.mp namesWritten).imp fun _ _ => Bytes.delimits_text).flip
  have read := (Bytes.delimits_sequence each sequenceWritten).map Samples.Configurations.ofList
  rwa [Samples.Configurations.ofList_toList] at read

end Storable

namespace Checkpoint

variable {V : Type} [Storable V] {checkpoint : Checkpoint V}

theorem delimits_entry (readBack : Storable.ReadBackFromBytes V) {entry : StateId × V}
    {form : List UInt8} (written : entryToBytes? entry = some form) :
    Delimits readEntry form entry := by
  obtain ⟨state, stateWritten, rest⟩ := Option.bind_eq_some_iff.mp written
  obtain ⟨value, valueWritten, same⟩ := Option.bind_eq_some_iff.mp rest
  obtain rfl := Option.some.inj same
  have valueRead := readBack entry.2 value valueWritten
  exact (Bytes.delimits_text stateWritten).bind (valueRead.andThen (.pure entry))

theorem delimits_values (readBack : Storable.ReadBackFromBytes V) {semantics : StateMap V}
    {form : List UInt8} (written : valuesToBytes? semantics = some form) :
    Delimits readValues form semantics := by
  obtain ⟨forms, entriesWritten, sequenceWritten⟩ := Option.bind_eq_some_iff.mp written
  have each : List.Forall₂ (Delimits (readEntry (V := V))) forms semantics.toList :=
    ((mapM_eq_some_iff.mp entriesWritten).imp fun _ _ => delimits_entry readBack).flip
  have rebuilt : Delimits (pure (.ofList semantics.toList)) [] semantics := by
    rw [StateMap.ofList_toList]
    exact .pure semantics
  exact (Bytes.delimits_sequence each sequenceWritten).andThen rebuilt

theorem delimits_instant {instant : Instant} (lower : 0 ≤ instant.date.year)
    (upper : instant.date.year ≤ 9999) {form : List UInt8}
    (written : Bytes.text? instant.text = some form) : Delimits readInstant form instant :=
  (Bytes.delimits_text written).andThen <| by
    rw [Instant.ofText?_text lower upper]
    exact .pure instant

/-- Whatever its version, a checkpoint is read from its bytes and from no part of them. -/
theorem delimits (readBack : Storable.ReadBackFromBytes V)
    (lower : 0 ≤ checkpoint.createdAt.date.year) (upper : checkpoint.createdAt.date.year ≤ 9999)
    {form : List UInt8} (written : checkpoint.toBytes? = some form) :
    Delimits read form checkpoint := by
  simp only [toBytes?, Option.bind_eq_bind, Option.bind_eq_some_iff, Option.pure_def,
    Option.some.injEq, List.append_assoc] at written
  obtain ⟨id, idWritten, createdAt, createdAtWritten, machine, machineWritten, semantics,
    semanticsWritten, rfl⟩ := written
  have version : Delimits (Bytes.readWord 4) (Bytes.word 4 checkpoint.version.toNat) _ :=
    Bytes.delimits_word checkpoint.version.toNat_lt_size
  have iterations : Delimits (Bytes.readWord 8) (Bytes.word 8 checkpoint.iterations.toNat) _ :=
    Bytes.delimits_word checkpoint.iterations.toNat_lt_size
  have rebuilt : Delimits (pure { checkpoint with
      version := .ofNat checkpoint.version.toNat
      iterations := .ofNat checkpoint.iterations.toNat }) [] checkpoint := by
    rw [UInt32.ofNat_toNat, UInt64.ofNat_toNat]
    exact .pure checkpoint
  exact version.bind <| (Bytes.delimits_text idWritten).bind <|
    (delimits_instant lower upper createdAtWritten).bind <|
    (Bytes.delimits_text machineWritten).bind <| iterations.bind <|
    (delimits_values readBack semanticsWritten).andThen rebuilt

theorem toBytes_eq_ok_iff {form : List UInt8} :
    checkpoint.toBytes = .ok form ↔ checkpoint.toBytes? = some form := by
  unfold toBytes
  cases checkpoint.toBytes? <;> simp

/-- What follows the bytes of a checkpoint does not matter, and what is missing from them is
noticed before the version is looked at. -/
theorem ofBytes_toBytes (readBack : Storable.ReadBackFromBytes V)
    (lower : 0 ≤ checkpoint.createdAt.date.year) (upper : checkpoint.createdAt.date.year ≤ 9999)
    {form : List UInt8} (written : checkpoint.toBytes = .ok form) :
    (∀ rest, ofBytes (form ++ rest) =
      if checkpoint.version = 1 then .ok checkpoint
      else .error (.unsupportedVersion checkpoint.version 1)) ∧
    ∀ part, part <+: form → part ≠ form →
      ∃ reason, (ofBytes part : Except _ (Checkpoint V)) = .error (.unreadable reason) := by
  have delimited := delimits readBack lower upper (toBytes_eq_ok_iff.mp written)
  constructor
  · intro rest
    rw [ofBytes, delimited.whole rest]
    rfl
  · intro part isPrefix strict
    rw [ofBytes, delimited.cut part isPrefix strict]
    exact ⟨_, rfl⟩

/-- The last byte is missing in the second part of each of the first two cases. -/
theorem snapshot_bytes_read_back :
    (∃ form, (Samples.snapshot 1).toBytes = .ok form ∧
      ofBytes (form ++ [0, 255]) = .ok (Samples.snapshot 1) ∧
      ∃ reason, (ofBytes form.dropLast : Except _ (Checkpoint Samples.Term)) =
        .error (.unreadable reason)) ∧
    (∃ form, (Samples.snapshot 2).toBytes = .ok form ∧
      (ofBytes (form ++ [0, 255]) : Except _ (Checkpoint Samples.Term)) =
        .error (.unsupportedVersion 2 1) ∧
      ∃ reason, (ofBytes form.dropLast : Except _ (Checkpoint Samples.Term)) =
        .error (.unreadable reason)) ∧
    ∃ form, Samples.crowds.toBytes = .ok form ∧
      ofBytes (form ++ [0, 255]) = .ok Samples.crowds := by
  have readBack := Storable.readBackFromBytes_term
  have current : ∃ form, (Samples.snapshot 1).toBytes = .ok form ∧ form.dropLast ≠ form :=
    exists_ok_of_any (by decide +kernel)
  have later : ∃ form, (Samples.snapshot 2).toBytes = .ok form ∧ form.dropLast ≠ form :=
    exists_ok_of_any (by decide +kernel)
  have crowded : ∃ form, Samples.crowds.toBytes = .ok form :=
    exists_ok_of_isSome (by decide +kernel)
  obtain ⟨form, written, shorter⟩ := current
  obtain ⟨laterForm, laterWritten, laterShorter⟩ := later
  obtain ⟨crowdsForm, crowdsWritten⟩ := crowded
  have read := ofBytes_toBytes readBack (by decide) (by decide) written
  have laterRead := ofBytes_toBytes readBack (by decide) (by decide) laterWritten
  have crowdsRead := ofBytes_toBytes Storable.readBackFromBytes_configurations (by decide)
    (by decide) crowdsWritten
  exact ⟨⟨form, written, read.1 [0, 255], read.2 _ form.dropLast_prefix shorter⟩,
    ⟨laterForm, laterWritten, laterRead.1 [0, 255],
      laterRead.2 _ laterForm.dropLast_prefix laterShorter⟩,
    crowdsForm, crowdsWritten, crowdsRead.1 [0, 255]⟩

end Checkpoint
end ReactiveReach
