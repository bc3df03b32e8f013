/-! Events emitted at decision points, and results that carry the events emitted on the way. -/

namespace StrictUtf8

inductive TraceEvent where
  | unpairedSurrogate (index : Nat) (unit : UInt16)
  | lengthOverflow (computed limit : UInt64)
  /-- A check of bytes in memory stopped after `consumed` of them and rejected the text. -/
  | illFormed (consumed : Nat)
deriving DecidableEq, Repr

def TraceEvent.message : TraceEvent → String
  | .unpairedSurrogate .. => "unpaired surrogate"
  | .lengthOverflow .. => "UTF-8 length overflow"
  | .illFormed .. => "ill-formed UTF-8"

/-- A value with the events emitted while it was computed, oldest first. -/
structure Traced (α : Type) where
  value : α
  events : List TraceEvent
deriving DecidableEq, Repr

namespace Traced
variable {α β : Type}

def emit (event : TraceEvent) : Traced Unit := ⟨(), [event]⟩

instance : Monad Traced where
  pure a := ⟨a, []⟩
  bind x f := ⟨(f x.value).value, x.events ++ (f x.value).events⟩

@[simp] theorem value_pure (a : α) : (pure a : Traced α).value = a := rfl

@[simp] theorem events_pure (a : α) : (pure a : Traced α).events = [] := rfl

@[simp] theorem value_bind (x : Traced α) (f : α → Traced β) :
    (x >>= f).value = (f x.value).value := rfl

@[simp] theorem events_bind (x : Traced α) (f : α → Traced β) :
    (x >>= f).events = x.events ++ (f x.value).events := rfl

@[simp] theorem value_map (f : α → β) (x : Traced α) : (f <$> x).value = f x.value := rfl

@[simp] theorem events_map (f : α → β) (x : Traced α) : (f <$> x).events = x.events :=
  List.append_nil _

@[simp] theorem events_emit (event : TraceEvent) : (emit event).events = [event] := rfl

end Traced
end StrictUtf8
