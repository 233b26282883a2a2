import DeferredLog.Frame.Basic

/-!
# Decoding in two monads

Decoding is written once for all monads in which it may run. A relation between the computations of two
of them that is kept by returning, raising and sequencing relates everything that is decoded from related
formats; what the monads remember or leave open is not looked at.

    (∀ index, R.rel (formats index) (formats' index)) → R.rel (decode t formats c) (decode t formats' c)
                                                                                    (Transfer.decode)
-/

namespace DeferredLog

/-- A relation between the computations of two monads that follows their structure. -/
structure Transfer (m n : Type → Type) [Monad m] [MonadExceptOf Fault m] [Monad n]
    [MonadExceptOf Fault n] where
  rel : ∀ {α : Type}, m α → n α → Prop
  rel_pure : ∀ {α : Type} (a : α), rel (pure a : m α) (pure a)
  rel_throw : ∀ {α : Type} (e : Fault), rel (throwThe Fault e : m α) (throwThe Fault e)
  rel_bind : ∀ {α β : Type} {x : m α} {y : n α} {f : α → m β} {g : α → n β},
    rel x y → (∀ a, rel (f a) (g a)) → rel (x >>= f) (y >>= g)

namespace Transfer

variable {m n : Type → Type} [Monad m] [MonadExceptOf Fault m] [Monad n] [MonadExceptOf Fault n]
  (R : Transfer m n) {t : Table}

/-- What is found without either monad is the same in both. -/
theorem lift {α : Type} (x : Except Fault α) : R.rel (Fault.lift x : m α) (Fault.lift x) := by
  cases x with
  | ok a => exact R.rel_pure a
  | error e => exact R.rel_throw e

/-! ## Arguments -/

theorem elements {read : Cursor → m (Value × Cursor)} {read' : Cursor → n (Value × Cursor)}
    (h : ∀ c, R.rel (read c) (read' c)) (count : Nat) (c : Cursor) :
    R.rel (Wire.elements read count c) (Wire.elements read' count c) := by
  induction count generalizing c with
  | zero => exact R.rel_pure _
  | succ count ih =>
    refine R.rel_bind (h c) fun ⟨v, c⟩ => ?_
    exact R.rel_bind (ih c) fun ⟨vs, c⟩ => R.rel_pure _

section
variable {nested : Nat → Cursor → m (Value × Cursor)} {nested' : Nat → Cursor → n (Value × Cursor)}
  (hn : ∀ index c, R.rel (nested index c) (nested' index c))

include hn

theorem formatSlice (c : Cursor) : R.rel (Wire.formatSlice nested c) (Wire.formatSlice nested' c) := by
  refine R.rel_bind (R.lift _) fun ⟨count, c⟩ => ?_
  dsimp only
  split
  · exact R.rel_throw _
  · split
    · exact R.rel_pure _
    · refine R.rel_bind (R.lift _) fun ⟨index, c⟩ => ?_
      exact R.rel_bind (R.elements (hn index) count c) fun ⟨vs, c⟩ => R.rel_pure _

theorem argument (type : ArgType) (c : Cursor) :
    R.rel (Wire.argument t nested type c) (Wire.argument t nested' type c) := by
  cases type with
  | format => exact R.rel_bind (R.lift _) fun ⟨index, c⟩ => hn index c
  | formatSlice => exact R.formatSlice hn c
  | nested tag => exact hn tag.index c
  | _ => exact R.lift _

theorem arguments (types : List ArgType) (c : Cursor) :
    R.rel (Wire.arguments t nested types c) (Wire.arguments t nested' types c) := by
  induction types generalizing c with
  | nil => exact R.rel_pure _
  | cons type types ih =>
    refine R.rel_bind (R.argument hn type c) fun ⟨v, c⟩ => ?_
    exact R.rel_bind (ih c) fun ⟨vs, c⟩ => R.rel_pure _

end

section
variable {formats : Nat → m FormatString} {formats' : Nat → n FormatString}
  (hf : ∀ index, R.rel (formats index) (formats' index))

include hf

theorem nestedValue (levels index : Nat) (c : Cursor) :
    R.rel (Wire.nestedValue t formats levels index c) (Wire.nestedValue t formats' levels index c) := by
  induction levels generalizing index c with
  | zero => exact R.rel_throw _
  | succ levels ih =>
    refine R.rel_bind (hf index) fun f => ?_
    exact R.rel_bind (R.arguments ih f.arguments c) fun ⟨args, c⟩ => R.rel_pure _

theorem decodeArguments (depth : Nat) (f : FormatString) (c : Cursor) :
    R.rel (Wire.decodeArguments t formats depth f c) (Wire.decodeArguments t formats' depth f c) :=
  R.arguments (R.nestedValue hf _) f.arguments c

/-! ## Frames -/

theorem decodeTimestamp (c : Cursor) :
    R.rel (Frame.decodeTimestamp t formats c) (Frame.decodeTimestamp t formats' c) := by
  unfold Frame.decodeTimestamp
  split
  · exact R.rel_pure _
  · next index _ => exact R.rel_bind (hf index) fun f => R.decodeArguments hf 0 f c

theorem decodeBody (index : Nat) (c : Cursor) :
    R.rel (Frame.decodeBody t formats index c) (Frame.decodeBody t formats' index c) := by
  refine R.rel_bind (R.lift _) fun ⟨entry, level⟩ => ?_
  refine R.rel_bind (R.decodeTimestamp hf c) fun ⟨timestamp, c⟩ => ?_
  refine R.rel_bind (hf index) fun f => ?_
  exact R.rel_bind (R.decodeArguments hf 0 f c) fun ⟨args, c⟩ => R.rel_pure _

theorem decode (c : Cursor) : R.rel (Frame.decode t formats c) (Frame.decode t formats' c) :=
  R.rel_bind (R.lift _) fun ⟨index, c⟩ => R.decodeBody hf index c

theorem decodeBytes (data : List UInt8) :
    R.rel (Frame.decodeBytes t formats data) (Frame.decodeBytes t formats' data) :=
  R.rel_bind (R.decode hf _) fun ⟨_, _⟩ => R.rel_pure _

end

end Transfer

end DeferredLog
