import Mathlib
import SmoothShading.Proofs.Bits.Sequence

/-!
# What a parser reads

`Reads start parse bs a`: the parser takes the value `a` from the bits `bs` wherever they stand in a
stream, and stops behind them. Of the position only its place in a byte matters, which is that of
`start`. The relation composes: what the parts of a record are read from can be written one after
another (`Reads.bind`, `Reads.times`, `Reads.mapM`).

`Yields parse P` is about streams of which nothing is known: whatever the parser takes from them has
the property `P`. `Advances parse stop` says how far the parser comes in such a stream, and that it
stays within. `Persists parse` compares streams: what the parser takes from one it takes from every
stream that begins with it.
-/

namespace SmoothShading.Bits

/-- The parser takes `a` from the bits `bs` at every position that is in its byte where `start`
is. -/
def Reads {α : Type} (start : ℕ) (parse : BitParser α) (bs : List Bool) (a : α) : Prop :=
  ∀ r : Reader, r.position % 8 = start % 8 → Occurs r.data r.position bs →
    parse.run r = some (a, { r with position := r.position + bs.length })

namespace Reads

variable {α β γ : Type} {start : ℕ}

theorem pure (a : α) : Reads start (Pure.pure a) [] a := fun _ _ _ => rfl

theorem bind {parse : BitParser α} {next : α → BitParser β} {as bs : List Bool} {a : α} {b : β}
    (ha : Reads start parse as a) (hb : Reads (start + as.length) (next a) bs b) :
    Reads start (parse >>= next) (as ++ bs) b := by
  intro r hr hocc
  obtain ⟨hoccA, hoccB⟩ := Occurs.append_iff.mp hocc
  have hstep := ha r hr hoccA
  have hrest := hb { r with position := r.position + as.length }
    (by dsimp only; omega) hoccB
  rw [StateT.run_bind, hstep, List.length_append, ← Nat.add_assoc]
  exact hrest

/-- A value that is computed from what was read takes no bits of its own. -/
theorem bind_pure {parse : BitParser α} {bs : List Bool} {a : α} (ha : Reads start parse bs a)
    (f : α → β) : Reads start (parse >>= fun a => Pure.pure (f a)) bs (f a) := by
  rw [← List.append_nil bs]
  exact ha.bind (Reads.pure (f a))

theorem map {parse : BitParser α} {bs : List Bool} {a : α} (ha : Reads start parse bs a)
    (f : α → β) : Reads start (f <$> parse) bs (f a) := by
  rw [map_eq_pure_bind]
  exact ha.bind_pure f

/-- A sample keeps as many of the lowest bits as its width has. -/
theorem read (width : Width) (value : ℕ) :
    Reads start (Reader.read width) (expand width.bits value) (value % 2 ^ width.bits) := by
  intro r _ hocc
  rw [length_expand]
  exact Reader.read_of_occurs hocc

/-- What fills the last byte is skipped. -/
theorem align (start : ℕ) : Reads start Reader.align (padding start) () := by
  intro r hr _
  change some ((), r.aligned) = _
  simp only [Reader.aligned, length_padding]
  congr 3
  omega

/-- Values of one kind are read one after another. -/
theorem times {parse : BitParser β} {bits : α → List Bool} {value : α → β} {n : ℕ}
    (v : Vector α n) (h : ∀ a start, Reads start parse (bits a) (value a)) :
    Reads start (parse.times n) (v.toList.flatMap bits) (v.map value) := by
  induction n generalizing start with
  | zero =>
    obtain rfl : v = #v[] := Vector.eq_empty
    rw [Vector.map_empty]
    exact Reads.pure #v[]
  | succ n ih =>
    obtain ⟨earlier, last, rfl⟩ : ∃ (earlier : Vector α n) (last : α), v = earlier.push last :=
      ⟨v.pop, v.back, (Vector.push_pop_back v).symm⟩
    rw [Vector.toList_push, List.flatMap_append, List.flatMap_singleton, Vector.map_push]
    exact (ih earlier).bind ((h last _).bind_pure _)

/-- Values that are read by different parsers are read one after another. -/
theorem mapM {parse : γ → BitParser β} {bits : α → List Bool} {value : γ → α → β} :
    ∀ (cs : List γ) (as : List α) {start : ℕ}, as.length = cs.length →
      (∀ c ∈ cs, ∀ a start, Reads start (parse c) (bits a) (value c a)) →
      Reads start (cs.mapM parse) (as.flatMap bits) (List.zipWith value cs as)
  | [], [], _, _, _ => Reads.pure _
  | c :: cs, a :: as, start, hlen, h => by
    rw [List.mapM_cons, List.flatMap_cons]
    refine (h c List.mem_cons_self a start).bind ?_
    refine (mapM cs as (by simpa using hlen) fun c hc => h c (List.mem_cons_of_mem _ hc)).bind_pure
      (value c a :: ·)

end Reads

/-! ## What comes of a parser -/

/-- Whatever the parser takes from a stream has the property. -/
def Yields {α : Type} (parse : BitParser α) (P : α → Prop) : Prop :=
  ∀ r a s, parse.run r = some (a, s) → P a

namespace Yields

variable {α β γ : Type} {parse : BitParser α} {P : α → Prop} {Q : β → Prop}

theorem trivial (parse : BitParser α) : Yields parse fun _ => True := fun _ _ _ _ => ⟨⟩

theorem pure {a : α} (h : P a) : Yields (Pure.pure a) P := by
  intro r b s hrun
  cases hrun
  exact h

theorem bind {next : α → BitParser β} (ha : Yields parse P) (hb : ∀ a, P a → Yields (next a) Q) :
    Yields (parse >>= next) Q := by
  intro r b s hrun
  rw [StateT.run_bind, Option.bind_eq_bind, Option.bind_eq_some_iff] at hrun
  obtain ⟨⟨a, t⟩, hfirst, hnext⟩ := hrun
  exact hb a (ha r a t hfirst) t b s hnext

theorem times (h : Yields parse P) (n : ℕ) : Yields (parse.times n) fun v => ∀ a ∈ v, P a := by
  induction n with
  | zero => exact pure fun a ha => absurd ha (Vector.not_mem_empty a)
  | succ n ih =>
    refine ih.bind fun earlier hearlier => h.bind fun last hlast => pure fun a ha => ?_
    rcases Vector.mem_push.mp ha with hmem | rfl
    · exact hearlier a hmem
    · exact hlast

theorem mono (h : Yields parse P) {P' : α → Prop} (himp : ∀ a, P a → P' a) : Yields parse P' :=
  fun r a s hrun => himp a (h r a s hrun)

/-- Each value has the property that goes with its own parser. -/
theorem mapM {parse : γ → BitParser β} {R : γ → β → Prop} (cs : List γ)
    (h : ∀ c ∈ cs, Yields (parse c) (R c)) : Yields (cs.mapM parse) (List.Forall₂ R cs) := by
  induction cs with
  | nil => exact pure .nil
  | cons c cs ih =>
    rw [List.mapM_cons]
    have hrest := ih fun c hc => h c (List.mem_cons_of_mem _ hc)
    exact (h c List.mem_cons_self).bind fun b hb => hrest.bind fun bs hbs => pure (.cons hb hbs)

theorem length_mapM (cs : List γ) (parse : γ → BitParser β) :
    Yields (cs.mapM parse) fun bs => bs.length = cs.length :=
  (mapM cs fun c _ => trivial (parse c)).mono fun _ hbs => hbs.length_eq.symm

end Yields

/-! ## How far a parser comes -/

/-- From a position within a stream the parser comes to the position `stop` tells, if it takes
anything, and this is within the stream as well. -/
def Advances {α : Type} (parse : BitParser α) (stop : ℕ → ℕ) : Prop :=
  ∀ r a s, r.position ≤ r.bitCount → parse.run r = some (a, s) →
    s = { r with position := stop r.position } ∧ stop r.position ≤ r.bitCount

namespace Advances

variable {α β γ : Type} {parse : BitParser α} {stop : ℕ → ℕ}

theorem pure (a : α) : Advances (Pure.pure a) id := by
  intro r b s hr hrun
  cases hrun
  exact ⟨rfl, hr⟩

theorem bind {next : α → BitParser β} {stop' : ℕ → ℕ} (ha : Advances parse stop)
    (hb : ∀ a, Advances (next a) stop') :
    Advances (parse >>= next) fun position => stop' (stop position) := by
  intro r b s hr hrun
  rw [StateT.run_bind, Option.bind_eq_bind, Option.bind_eq_some_iff] at hrun
  obtain ⟨⟨a, t⟩, hfirst, hnext⟩ := hrun
  obtain ⟨rfl, ht⟩ := ha r a t hr hfirst
  exact hb a _ b s ht hnext

theorem map (ha : Advances parse stop) (f : α → β) : Advances (f <$> parse) stop := by
  rw [map_eq_pure_bind]
  exact ha.bind fun a => pure (f a)

theorem read (width : Width) : Advances (Reader.read width) (· + width.bits) := by
  intro r value s hr hrun
  by_cases hle : r.position + width.bits ≤ r.bitCount
  · rw [Reader.read_of_le hle] at hrun
    cases hrun
    exact ⟨rfl, hle⟩
  · rw [Reader.read_of_lt (not_le.mp hle)] at hrun
    cases hrun

/-- The end of a stream is the end of a byte, so that it is not passed. -/
theorem align : Advances Reader.align fun position => 8 * ((position + 7) / 8) := by
  intro r _ s hr hrun
  cases hrun
  refine ⟨rfl, ?_⟩
  unfold Reader.bitCount at hr ⊢
  dsimp only
  omega

theorem times {size : ℕ} (h : Advances parse (· + size)) (n : ℕ) :
    Advances (parse.times n) (· + n * size) := by
  induction n with
  | zero =>
    simp only [Nat.zero_mul]
    exact pure #v[]
  | succ n ih =>
    simp only [Nat.succ_mul, ← Nat.add_assoc]
    exact ih.bind fun earlier => h.bind fun last => pure (earlier.push last)

theorem mapM {parse : γ → BitParser β} {size : ℕ} (cs : List γ)
    (h : ∀ c, Advances (parse c) (· + size)) :
    Advances (cs.mapM parse) (· + cs.length * size) := by
  induction cs with
  | nil =>
    simp only [List.length_nil, Nat.zero_mul]
    exact pure []
  | cons c cs ih =>
    rw [List.mapM_cons]
    simp only [List.length_cons, Nat.succ_mul, Nat.add_comm (cs.length * size), ← Nat.add_assoc]
    exact (h c).bind fun b => ih.bind fun bs => pure (b :: bs)

end Advances

/-! ## Longer streams -/

/-- What the parser takes from a stream it takes from every longer one, and stops at the same
position. -/
def Persists {α : Type} (parse : BitParser α) : Prop :=
  ∀ (r : Reader) (data : Array UInt8) a s, r.data.toList <+: data.toList →
    parse.run r = some (a, s) → s.data = r.data ∧
      parse.run ⟨data, r.position⟩ = some (a, ⟨data, s.position⟩)

namespace Persists

variable {α β γ : Type} {parse : BitParser α}

theorem pure (a : α) : Persists (Pure.pure a) := by
  intro r data b s _ hrun
  cases hrun
  exact ⟨rfl, rfl⟩

theorem bind {next : α → BitParser β} (ha : Persists parse) (hb : ∀ a, Persists (next a)) :
    Persists (parse >>= next) := by
  intro r data b s hlonger hrun
  rw [StateT.run_bind, Option.bind_eq_bind, Option.bind_eq_some_iff] at hrun
  obtain ⟨⟨a, t⟩, hfirst, hnext⟩ := hrun
  obtain ⟨ht, hfirst⟩ := ha r data a t hlonger hfirst
  rw [← ht] at hlonger
  obtain ⟨hs, hnext⟩ := hb a t data b s hlonger hnext
  rw [StateT.run_bind, hfirst]
  exact ⟨hs.trans ht, hnext⟩

theorem map (ha : Persists parse) (f : α → β) : Persists (f <$> parse) := by
  rw [map_eq_pure_bind]
  exact ha.bind fun a => pure (f a)

theorem read (width : Width) : Persists (Reader.read width) := by
  intro r data value s hlonger hrun
  by_cases hle : r.position + width.bits ≤ r.bitCount
  · rw [Reader.read_of_le hle] at hrun
    cases hrun
    have hocc := (Reader.occurs_peek hle).mono hlonger
    have hread := Reader.read_of_occurs (r := ⟨data, r.position⟩) hocc
    rw [Nat.mod_eq_of_lt (r.peek_lt width.bits)] at hread
    exact ⟨rfl, hread⟩
  · rw [Reader.read_of_lt (not_le.mp hle)] at hrun
    cases hrun

theorem align : Persists Reader.align := by
  intro r data _ s _ hrun
  cases hrun
  exact ⟨rfl, rfl⟩

theorem times (h : Persists parse) (n : ℕ) : Persists (parse.times n) := by
  induction n with
  | zero => exact pure #v[]
  | succ n ih => exact ih.bind fun earlier => h.bind fun last => pure (earlier.push last)

theorem mapM {parse : γ → BitParser β} (cs : List γ) (h : ∀ c, Persists (parse c)) :
    Persists (cs.mapM parse) := by
  induction cs with
  | nil => exact pure []
  | cons c cs ih =>
    rw [List.mapM_cons]
    exact (h c).bind fun b => ih.bind fun bs => pure (b :: bs)

end Persists

end SmoothShading.Bits
