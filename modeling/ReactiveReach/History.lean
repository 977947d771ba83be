import ReactiveReach.State

/-!
# Histories

A run keeps one record per pass: the number of the pass and the states whose value it changed.
From the records one can tell when a state changed and when it settled.
-/

namespace ReactiveReach

/-- What one pass changed, with the states in the order of the machine. -/
structure PassRecord where
  iteration : Nat
  changed : List StateId
  deriving DecidableEq

namespace PassRecord

def isStable (entry : PassRecord) : Bool := entry.changed.isEmpty

end PassRecord

/-- The records of a run, the first pass first. -/
structure History where
  records : Array PassRecord
  deriving DecidableEq

namespace History

def empty : History := ⟨#[]⟩

def record (history : History) (entry : PassRecord) : History := ⟨history.records.push entry⟩

def ofList (entries : List PassRecord) : History := ⟨entries.toArray⟩

def toList (history : History) : List PassRecord := history.records.toList

def length (history : History) : Nat := history.records.size

def last? (history : History) : Option PassRecord := history.records.back?

/-- The numbers of the passes that changed a state. -/
def changesOf (history : History) (state : StateId) : List Nat :=
  (history.toList.filter (·.changed.contains state)).map (·.iteration)

/-- The number of the last pass that changed a state. -/
def settledAt? (history : History) (state : StateId) : Option Nat :=
  (history.changesOf state).getLast?

def totalChanges (history : History) : Nat :=
  (history.toList.flatMap (·.changed)).length

@[simp] theorem toList_empty : empty.toList = [] := rfl

@[simp] theorem toList_record (history : History) (entry : PassRecord) :
    (history.record entry).toList = history.toList ++ [entry] := by
  simp [record, toList]

@[simp] theorem toList_ofList (entries : List PassRecord) : (ofList entries).toList = entries := by
  simp [ofList, toList]

@[simp] theorem last?_empty : empty.last? = none := rfl

@[simp] theorem last?_record (history : History) (entry : PassRecord) :
    (history.record entry).last? = some entry := by
  simp [record, last?]

theorem last?_eq (history : History) : history.last? = history.toList.getLast? := by
  simp [last?, toList]

theorem changesOf_record (history : History) (entry : PassRecord) (state : StateId) :
    (history.record entry).changesOf state =
      history.changesOf state ++
        if entry.changed.contains state then [entry.iteration] else [] := by
  rw [changesOf, toList_record, List.filter_append, List.map_append, ← changesOf]
  by_cases listed : state ∈ entry.changed <;> simp [listed]

theorem totalChanges_record (history : History) (entry : PassRecord) :
    (history.record entry).totalChanges = history.totalChanges + entry.changed.length := by
  simp [totalChanges]

theorem toList_injective {first second : History}
    (same : first.toList = second.toList) : first = second := by
  obtain ⟨⟨firstRecords⟩⟩ := first
  obtain ⟨⟨secondRecords⟩⟩ := second
  exact congrArg (fun records => (⟨⟨records⟩⟩ : History)) same

theorem length_eq (history : History) : history.length = history.toList.length := by
  simp [length, toList]

end History
end ReactiveReach
