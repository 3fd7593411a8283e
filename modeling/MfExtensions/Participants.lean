import MfExtensions.Types

/-!
# Participants

`ma_participants`: the applications known to take part, in groups or without one. It is a singleton
that the engine's interface passes calls on to.
-/

namespace MfExtensions

/-- A `std::set` of strings. -/
abbrev StringSet := OrdMap String Unit

structure Participants where
  ungroupedApps : StringSet := OrdMap.empty
  allApps : StringSet := OrdMap.empty
  groups : OrdMap String StringSet := OrdMap.empty

namespace Participants

/-- What `ss.str(group); ss << "-" << i;` leaves in the stream: it writes from the start. -/
def memberName (group : String) (i : ℕ) : String :=
  let suffix := "-" ++ toString i
  String.ofList (suffix.toList ++ group.toList.drop suffix.length)

/-- Throw if the group is there already. -/
def newGroup (p : Participants) (group : String) : Except Err Unit :=
  if (p.groups.find? group).isSome then
    .error (.runtime (group ++ " already exists while creating new group"))
  else .ok ()

/-- `add_group(group)`. -/
def addGroup (group : String) (p : Participants) : Except Err Participants := do
  p.newGroup group
  return { p with groups := p.groups.insert group OrdMap.empty }

/-- `add_group(group, size)`. -/
def addGroupOfSize (group : String) (size : ℕ) (p : Participants) : Except Err Participants := do
  p.newGroup group
  let names := (List.range size).map (memberName group)
  let insertAll (s : StringSet) := names.foldl (fun s name => s.insert name ()) s
  return { p with
    allApps := insertAll p.allApps
    groups := p.groups.insert group (insertAll OrdMap.empty) }

/-- `add_participant(group, app)`. -/
def addParticipant (group app : String) (p : Participants) : Except Err Participants :=
  match p.groups.find? group with
  | none => .error (.runtime (group ++ " does not exist while inserting participants"))
  | some _ => .ok { p with
      allApps := p.allApps.insert app ()
      groups := p.groups.modify group fun apps => apps.insert app () }

/-- `add_participant(app)`. -/
def addUngrouped (app : String) (p : Participants) : Except Err Participants :=
  .ok { p with
    ungroupedApps := p.ungroupedApps.insert app ()
    allApps := p.allApps.insert app () }

/-- `get_group_participant_count`. -/
def groupCount (p : Participants) (group : String) : Except Err ℕ :=
  match p.groups.find? group with
  | none => .error (.runtime (group ++ " does not exist while getting participant count"))
  | some apps => .ok apps.size

/-- `get_participant_count`. -/
def participantCount (p : Participants) : ℕ := p.allApps.size

def reset : Participants := {}

end Participants

/-- The calls that change the participants. -/
inductive ParticipantsOp
  | addGroup (group : String)
  | addGroupOfSize (group : String) (size : ℕ)
  | addParticipant (group app : String)
  | addUngrouped (app : String)
  | reset

/-- The participants after a call; one that throws changes nothing. -/
def ParticipantsOp.exec : ParticipantsOp → Participants → Except Err Participants
  | .addGroup group, p => p.addGroup group
  | .addGroupOfSize group size, p => p.addGroupOfSize group size
  | .addParticipant group app, p => p.addParticipant group app
  | .addUngrouped app, p => p.addUngrouped app
  | .reset, _ => .ok Participants.reset

/-- Calls one after the other, up to the first that throws. -/
def ParticipantsOp.execAll (ops : List ParticipantsOp) (p : Participants) :
    Except Err Participants := ops.foldlM (fun p op => op.exec p) p

end MfExtensions
