import Mathlib
import SmoothShading.Proofs.Bits.Parser
import SmoothShading.Stream.Records

/-!
# Reading records

A stream that holds the bits of records one after another, and nothing behind them but padding, is
read as these records (`Records.read_of_occurs`). Records may be packed, or begin with a byte each:
they begin at multiples of a `unit` of bits.

Of any stream the records may be mapped as they are read or afterwards (`Records.read_map`), and
they can be seen each with the head that it was read behind (`Records.headed`).
-/

namespace SmoothShading.Records

open Bits

variable {η β ρ : Type} {head : BitParser η} {body : η → BitParser β}

/-- The first of the bits are those of the head, and the others those of the body. -/
def ReadsRecord (head : BitParser η) (body : η → BitParser β) (start : ℕ) (bs : List Bool)
    (b : β) : Prop :=
  ∃ headBits bodyBits h, bs = headBits ++ bodyBits ∧ Reads start head headBits h ∧
    Reads (start + headBits.length) (body h) bodyBits b

theorem read_padding {r : Reader} (h : r.remaining < 8) :
    Records.read head body r = ⟨[], .padding⟩ := by
  rw [Records.read, if_pos h]

/-- A record that takes at least a byte is read, and reading goes on behind it. -/
theorem read_cons {r : Reader} {bs : List Bool} {b : β}
    (hrec : ReadsRecord head body r.position bs b) (hocc : Occurs r.data r.position bs)
    (hlen : 8 ≤ bs.length) :
    Records.read head body r =
      let rest := Records.read head body { r with position := r.position + bs.length }
      ⟨b :: rest.complete, rest.tail⟩ := by
  obtain ⟨headBits, bodyBits, h, rfl, hhead, hbody⟩ := hrec
  obtain ⟨hoccHead, hoccBody⟩ := Occurs.append_iff.mp hocc
  have hsize := hocc.le
  rw [List.length_append] at hsize hlen ⊢
  have hrun := hhead r rfl hoccHead
  have hrest := hbody { r with position := r.position + headBits.length } rfl hoccBody
  have hmore : ¬ r.remaining < 8 := by
    unfold Reader.remaining Reader.bitCount
    omega
  have hless : Reader.remaining ⟨r.data, r.position + (headBits.length + bodyBits.length)⟩ <
      r.remaining := by
    unfold Reader.remaining Reader.bitCount
    dsimp only
    omega
  rw [Records.read, if_neg hmore]
  simp only [hrun, hrest, Nat.add_assoc]
  rw [if_pos hless]

/-- A stream of records and padding is read as these records. -/
theorem read_of_occurs {bits : ρ → List Bool} {value : ρ → β} {unit : ℕ} (records : List ρ)
    (hrec : ∀ x ∈ records, ∀ start, unit ∣ start →
      ReadsRecord head body start (bits x) (value x))
    (hunit : ∀ x ∈ records, unit ∣ (bits x).length) (hlen : ∀ x ∈ records, 8 ≤ (bits x).length)
    {r : Reader} (hr : unit ∣ r.position)
    (hocc : Occurs r.data r.position (records.flatMap bits))
    (hend : 8 * r.data.size < r.position + (records.flatMap bits).length + 8) :
    Records.read head body r = ⟨records.map value, .padding⟩ := by
  induction records generalizing r with
  | nil =>
    apply read_padding
    simp only [List.flatMap_nil, List.length_nil] at hend
    unfold Reader.remaining Reader.bitCount
    omega
  | cons x records ih =>
    rw [List.flatMap_cons] at hocc hend
    obtain ⟨hx, hrest⟩ := Occurs.append_iff.mp hocc
    have hmem := List.mem_cons_self (a := x) (l := records)
    rw [read_cons (hrec x hmem r.position hr) hx (hlen x hmem)]
    rw [ih (fun y hy => hrec y (List.mem_cons_of_mem x hy))
      (fun y hy => hunit y (List.mem_cons_of_mem x hy))
      (fun y hy => hlen y (List.mem_cons_of_mem x hy)) ((Nat.dvd_add_right hr).mpr (hunit x hmem))
      hrest (by rw [List.length_append] at hend; dsimp only; omega)]
    rfl

/-- The bytes of a writer that holds records are read as these records. -/
theorem read_of_holds {bits : ρ → List Bool} {value : ρ → β} {unit : ℕ} (records : List ρ)
    (hrec : ∀ x ∈ records, ∀ start, unit ∣ start →
      ReadsRecord head body start (bits x) (value x))
    (hunit : ∀ x ∈ records, unit ∣ (bits x).length) (hlen : ∀ x ∈ records, 8 ≤ (bits x).length)
    {w : Writer} (hw : w.Holds (records.flatMap bits)) :
    Records.read head body (Reader.ofBytes w.bytes) = ⟨records.map value, .padding⟩ := by
  refine read_of_occurs records hrec hunit hlen (Nat.dvd_zero unit) hw.occurs ?_
  have := hw.size_eq
  simp only [Reader.ofBytes]
  omega

/-! ## Records that are mapped -/

/-- A map may be applied to each record as it is read, or to all of them at the end. -/
theorem read_map {γ : Type} (head : BitParser η) (body : η → BitParser β) (g : β → γ)
    (r : Reader) :
    Records.read head (fun h => g <$> body h) r =
      ⟨(Records.read head body r).complete.map g, (Records.read head body r).tail⟩ := by
  fun_induction Records.read head body r with
  | case1 r hend => rw [read_padding hend, List.map_nil]
  | case2 r hmore hhead =>
    rw [Records.read, if_neg hmore]
    simp only [hhead, List.map_nil]
  | case3 r hmore h s hhead hbody =>
    rw [Records.read, if_neg hmore]
    simp only [hhead, StateT.run_map, hbody, Option.map_eq_map, Option.map_none, List.map_nil]
  | case4 r hmore h s hhead b next hbody hless rest ih =>
    rw [Records.read, if_neg hmore]
    simp only [hhead, StateT.run_map, hbody, Option.map_eq_map, Option.map_some]
    rw [if_pos hless, List.map_cons, ih]
  | case5 r hmore h s hhead b next hbody hless =>
    rw [Records.read, if_neg hmore]
    simp only [hhead, StateT.run_map, hbody, Option.map_eq_map, Option.map_some]
    rw [if_neg hless, List.map_singleton]

/-! ## Records with their heads -/

/-- The records of a stream, each with the head that it was read behind. -/
def headed (head : BitParser η) (body : η → BitParser β) (r : Reader) : List (η × β) :=
  (Records.read head (fun h => (h, ·) <$> body h) r).complete

theorem map_headed (r : Reader) :
    (headed head body r).map Prod.snd = (Records.read head body r).complete := by
  have hread := read_map head (fun h => (h, ·) <$> body h) Prod.snd r
  simp only [← comp_map, Function.comp_def, id_map'] at hread
  exact (congrArg Records.complete hread).symm

/-- What holds of all that the parsers take holds of the records of a stream. -/
theorem forall_mem_headed {P : η → β → Prop} (hP : Yields head fun h => Yields (body h) (P h))
    (r : Reader) : ∀ x ∈ headed head body r, P x.1 x.2 := by
  have hbody (h : η) (hh : Yields (body h) (P h)) :
      Yields ((h, ·) <$> body h) fun x => P x.1 x.2 := by
    rw [map_eq_pure_bind]
    exact hh.bind fun b hb => Yields.pure hb
  unfold headed
  fun_induction Records.read head (fun h => (h, ·) <$> body h) r with
  | case1 | case2 | case3 => exact fun x hx => absurd hx List.not_mem_nil
  | case4 r hmore h s hhead x next hrun hless rest ih =>
    intro y hy
    rcases List.mem_cons.mp hy with rfl | hy
    · exact hbody h (hP r h s hhead) s y next hrun
    · exact ih y hy
  | case5 r hmore h s hhead x next hrun hless =>
    intro y hy
    cases List.mem_singleton.mp hy
    exact hbody h (hP r h s hhead) s _ next hrun

/-- What holds of all that the parsers of bodies take holds of the records of a stream. -/
theorem forall_mem_complete {P : β → Prop} (hP : ∀ h, Yields (body h) P) (r : Reader) :
    ∀ b ∈ (Records.read head body r).complete, P b := by
  rw [← map_headed]
  refine List.forall_mem_map.mpr fun x hx => ?_
  exact forall_mem_headed (P := fun _ => P) (fun _ h _ _ => hP h) r x hx

end SmoothShading.Records
