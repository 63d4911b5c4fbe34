import Blockwise.Volume

namespace Blockwise

inductive CallKind where
  | openInput
  | create
  | list
  | close
  | delete
  | stat
  | seek
  | read
  | clone
  | write
  | flush
  | closeOutput
  deriving DecidableEq, Repr

def CallKind.word : CallKind → String
  | openInput => "open"
  | create => "create"
  | list => "list"
  | close => "close"
  | delete => "delete"
  | stat => "stat"
  | seek => "seek"
  | read => "read"
  | clone => "clone"
  | write => "write"
  | flush => "flush"
  | closeOutput => "close_output"

structure Guarded (γ β : Type) where
  guard : γ
  inner : β

-- Decides on a call by its kind and the name of the file.
abbrev Verdict (γ : Type) := CallKind → String → EStateM StorageError γ Unit

namespace Guarded

variable {γ β ι δ κ α : Type}

def onInner (x : Act β α) : Act (Guarded γ β) α :=
  Act.onPart Guarded.inner (fun s inner => { s with inner }) x

def ask (verdict : Verdict γ) (kind : CallKind) (name : String) : Act (Guarded γ β) Unit :=
  Act.onPart Guarded.guard (fun s guard => { s with guard })
    (Act.mapFailure Failure.error (verdict kind name))

variable (verdict : Verdict γ)

def volume (v : Volume β ι δ κ) : Volume (Guarded γ β) ι δ κ where
  openInput name purpose := do ask verdict .openInput name; onInner (v.openInput name purpose)
  create name purpose := do ask verdict .create name; onInner (v.create name purpose)
  list := do ask verdict .list ""; onInner v.list
  delete name := do ask verdict .delete name; onInner (v.delete name)
  hasFile name := onInner (v.hasFile name)
  length name := onInner (v.length name)
  stamp name := do ask verdict .stat name; onInner (v.stamp name)
  stamped := v.stamped
  sync names := onInner (v.sync names)
  lock name := onInner (v.lock name)
  close := do ask verdict .close ""; onInner v.close

def feed (f : Feed ι β) : Feed ι (Guarded γ β) where
  name := f.name
  length := f.length
  seek input position := do ask verdict .seek (f.name input); onInner (f.seek input position)
  read input position len s :=
    match ask verdict .read (f.name input) s with
    | .error e s' => (⟨ByteArray.empty, some e⟩, s')
    | .ok _ s' =>
      let (delivery, inner) := f.read input position len s'.inner
      (delivery, { s' with inner })
  clone input := do ask verdict .clone (f.name input); onInner (f.clone input)

def guardSink (f : Sink δ β) (kind : CallKind) (x : Act (δ × β) Unit) :
    Act (δ × Guarded γ β) Unit := do
  let (out, _) ← get
  Act.onPart Prod.snd (fun (out, _) s => (out, s)) (ask verdict kind (f.name out))
  Act.onPart (fun (out, s) => (out, s.inner)) (fun (_, s) (out, inner) => (out, { s with inner })) x

def sink (f : Sink δ β) : Sink δ (Guarded γ β) where
  name := f.name
  position := f.position
  write data := guardSink verdict f .write (f.write data)
  flush := guardSink verdict f .flush f.flush
  close := guardSink verdict f .closeOutput f.close
  drop out s := { s with inner := f.drop out s.inner }

-- Locks are not guarded.
def keeper (k : Keeper κ β) : Keeper κ (Guarded γ β) where
  name := k.name
  release :=
    Act.onPart (fun (l, s) => (l, s.inner)) (fun (_, s) (l, inner) => (l, { s with inner })) k.release
  drop l s := { s with inner := k.drop l s.inner }

end Guarded

-- Lets the given number of matching calls pass and refuses all after them.
structure Fault where
  kind : CallKind
  start : String
  skip : Nat
  notFound : Bool
  deriving DecidableEq, Repr

-- At most one fault of each kind.
abbrev Faults := List Fault

namespace Faults

def clear (faults : Faults) (kind : CallKind) : Faults := faults.filter (·.kind ≠ kind)

def put (faults : Faults) (f : Fault) : Faults := f :: faults.clear f.kind

def refusal (f : Fault) : StorageError :=
  let text := f.kind.word ++ " failed"
  .io (if f.notFound then .notFound text else .other text)

def verdict : Verdict Faults := fun kind name => do
  match (← get).find? fun f => f.kind = kind && name.startsWith f.start with
  | none => return ()
  | some f =>
    if f.skip = 0 then throw (refusal f)
    modify (·.put { f with skip := f.skip - 1 })

end Faults

end Blockwise
