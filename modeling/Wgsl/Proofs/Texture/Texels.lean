import Mathlib.Data.List.Forall2
import Wgsl.Proofs.Memory.Scalars
import Wgsl.Texture

/-! # Texels are apart and read back

The number of a texel is a mixed-radix number whose digits are the coordinates, so different
coordinates of one length stand for different runs of bytes.

* `Texture.place_injective`: texels have different numbers.
* `Texture.apply_storeChannels`: the components go into one run of bytes.
* `Texture.store_texel`: a store changes one texel, which reads as what was stored if its channels
  hold that.
-/

namespace Wgsl
set_option autoImplicit false

/-! ## Channels -/

namespace Channel

/-- The kind of the components that a channel spells. -/
def kind : Channel → ScalarKind
  | unorm8 | snorm8 | float16 | float32 => .f32
  | uint8 | uint32 => .u32
  | sint8 | sint32 => .i32

/-- The channel keeps the component as it is: one of as many bits, or an integer that is small
enough. -/
def Holds : Channel → Value → Prop
  | float32, .f32 _ | uint32, .u32 _ | sint32, .i32 _ => True
  | uint8, .u32 n => n.toNat < 256
  | sint8, .i32 n => -128 ≤ n.toInt ∧ n.toInt < 128
  | _, _ => False

variable {c : Channel} {v : Value}

/-- The component is written as these bytes, as many as the channel has. -/
def Writes (c : Channel) (v : Value) (bytes : List UInt8) : Prop :=
  c.encode v = .ok bytes ∧ bytes.length = c.size

/-- Every component of the kind is written. -/
theorem writes_of_kind (h : v.OfKind c.kind) : ∃ bytes, c.Writes v bytes := by
  unfold Writes
  cases c <;> cases v <;> simp only [kind, Value.OfKind] at h <;> refine ⟨_, rfl, ?_⟩ <;>
    simp [size, Bytes.ofUInt16, Bytes.ofUInt32]

/-- The lowest byte of a small integer. -/
theorem signedByte_mod {n : Int32} (hlo : -128 ≤ n.toInt) (hhi : n.toInt < 128) :
    signedByte (n.toUInt32.toNat % 256) = n.toInt := by
  have signed : n.toInt = if 2 * n.toUInt32.toNat < 4294967296 then (n.toUInt32.toNat : Int)
      else (n.toUInt32.toNat : Int) - 4294967296 := BitVec.toInt_eq_toNat_cond n.toBitVec
  have bound : n.toUInt32.toNat < 4294967296 := n.toUInt32.toNat_lt
  rw [signed] at hlo hhi ⊢
  unfold signedByte
  split at hlo <;> omega

theorem unsigned_u32 (n : UInt32) : (Value.u32 n).unsigned = .ok n :=
  congrArg Except.ok UInt32.ofNat_toNat

theorem signed_i32 (n : Int32) : (Value.i32 n).signed = .ok n :=
  congrArg Except.ok (Int32.ofInt_toInt n)

/-- The bytes of a component that the channel holds spell that component. -/
theorem decode_of_writes {bytes : List UInt8} (h : c.Holds v) (hw : c.Writes v bytes) :
    c.decode bytes = v := by
  have he := hw.1
  cases c <;> cases v <;> simp only [Holds] at h <;>
    simp only [encode, unsigned_u32, signed_i32] at he <;> cases he
  · rename_i n
    rw [decode, Bytes.toNat_ofNat, Nat.mod_eq_of_lt (show n.toNat < Nat.pow 256 1 from h)]
    exact congrArg Value.u32 UInt32.ofNat_toNat
  · rw [decode, Bytes.toNat_ofNat, show Nat.pow 256 1 = 256 from rfl, signedByte_mod h.1 h.2,
      Int32.ofInt_toInt]
  · rw [decode, Bytes.toUInt32_ofUInt32]
  · rw [decode, Bytes.toUInt32_ofUInt32]
  · rw [decode, Bytes.toUInt32_ofUInt32, Int32.toInt32_toUInt32]

end Channel

/-! ## Runs of bytes -/

namespace Bytes

theorem write_append (data : Array UInt8) (start : Nat) (bytes more : List UInt8) :
    write data start (bytes ++ more) = write (write data start bytes) (start + bytes.length) more := by
  induction bytes generalizing data start with
  | nil => rfl
  | cons b bytes ih =>
    rw [List.cons_append, write, write, ih, List.length_cons, Nat.add_right_comm, Nat.add_assoc]

/-- A piece of what has been written. -/
theorem read_write_piece (data : Array UInt8) {start : Nat} {before piece after : List UInt8}
    (h : start + (before ++ piece ++ after).length ≤ data.size) :
    (read? (write data start (before ++ piece ++ after)) (start + before.length) piece.length).getD [] =
      piece := by
  rw [List.length_append, List.length_append] at h
  rw [write_append, write_append, List.length_append]
  have inside : start + before.length + piece.length ≤
      (write (write data start before) (start + before.length) piece).size := by
    rw [size_write, size_write]
    omega
  have behind := read_congr inside (size_write _ _ after) fun i _ hi =>
    getElem?_write_outside _ (Or.inl hi)
  rw [← Nat.add_assoc, behind]
  exact read_write _ (by rw [size_write]; omega)

end Bytes

namespace Texture

/-! ## The numbers of texels -/

/-- The coordinates are those of a texel: no more than there are axes, each inside the size of its
axis. Every axis is one texel wide at least. -/
def Inside : List Int → List Nat → Prop
  | [], _ => True
  | c :: cs, n :: ns => 0 ≤ c ∧ c < max n 1 ∧ Inside cs ns
  | _ :: _, [] => False

/-- The number of texels of some sizes. -/
def count : List Nat → Nat
  | [] => 1
  | n :: ns => max n 1 * count ns

/-- The number of a texel: the first coordinate counts single texels, each other one as many as the
axes before it span. -/
def place : List Int → List Nat → Nat
  | c :: cs, n :: ns => c.toNat + max n 1 * place cs ns
  | _, _ => 0

variable {cs cs' : List Int} {ns : List Nat}

theorem texelIndex_eq (h : Inside cs ns) : texelIndex cs ns = .ok (place cs ns) := by
  induction cs generalizing ns with
  | nil => cases ns <;> rfl
  | cons c cs ih =>
    cases ns with
    | nil => exact h.elim
    | cons n ns =>
      obtain ⟨hlo, hhi, hcs⟩ := h
      have inside : ¬(c < 0 ∨ max n 1 ≤ c.toNat) := by omega
      rw [texelIndex, if_neg inside, ih hcs]
      rfl

theorem count_pos (ns : List Nat) : 0 < count ns := by
  induction ns with
  | nil => exact Nat.one_pos
  | cons n ns ih => exact Nat.mul_pos (by omega) ih

theorem place_lt (h : Inside cs ns) : place cs ns < count ns := by
  induction cs generalizing ns with
  | nil =>
    cases ns <;> exact count_pos _
  | cons c cs ih =>
    cases ns with
    | nil => exact h.elim
    | cons n ns =>
      obtain ⟨hlo, hhi, hcs⟩ := h
      calc c.toNat + max n 1 * place cs ns
          < max n 1 * (place cs ns + 1) := by
            rw [Nat.mul_succ]
            omega
        _ ≤ max n 1 * count ns := Nat.mul_le_mul_left _ (ih hcs)

/-- Different coordinates have different numbers. -/
theorem place_injective (h : Inside cs ns) (h' : Inside cs' ns) (hl : cs.length = cs'.length)
    (he : place cs ns = place cs' ns) : cs = cs' := by
  induction cs generalizing cs' ns with
  | nil => exact (List.length_eq_zero_iff.1 hl.symm).symm
  | cons c cs ih =>
    cases cs' with
    | nil => cases hl
    | cons c' cs' =>
      cases ns with
      | nil => exact h.elim
      | cons n ns =>
        obtain ⟨hlo, hhi, hcs⟩ := h
        obtain ⟨hlo', hhi', hcs'⟩ := h'
        have digit : c.toNat < max n 1 := by omega
        have digit' : c'.toNat < max n 1 := by omega
        change c.toNat + max n 1 * place cs ns = c'.toNat + max n 1 * place cs' ns at he
        have first : c.toNat = c'.toNat := by
          have rem := congrArg (· % max n 1) he
          simpa only [Nat.add_mul_mod_self_left, Nat.mod_eq_of_lt digit, Nat.mod_eq_of_lt digit']
            using rem
        have rest : place cs ns = place cs' ns := by
          rw [first] at he
          exact Nat.eq_of_mul_eq_mul_left (by omega) (Nat.add_left_cancel he)
        rw [ih hcs hcs' (Nat.succ.inj hl) rest, show c = c' by omega]

variable {t : Texture} {v : Value}

/-- All texels have their bytes. -/
def Full (t : Texture) : Prop := count t.size.toList * t.format.bytesPerTexel ≤ t.data.size

theorem Full.end_le (h : t.Full) (hc : Inside cs t.size.toList) :
    place cs t.size.toList * t.format.bytesPerTexel + t.format.bytesPerTexel ≤ t.data.size := by
  refine Nat.le_trans ?_ h
  rw [← Nat.succ_mul]
  exact Nat.mul_le_mul_right _ (place_lt hc)

theorem texelStart_eq (h : t.Full) (hc : Inside cs t.size.toList) :
    t.texelStart cs = .ok (place cs t.size.toList * t.format.bytesPerTexel) := by
  have offset : t.texelOffset cs = .ok (place cs t.size.toList * t.format.bytesPerTexel) := by
    rw [texelOffset, texelIndex_eq hc]
    rfl
  rw [texelStart, offset]
  exact if_pos (h.end_le hc)

/-- Texels do not overlap. -/
theorem apart (hc : Inside cs t.size.toList) (hc' : Inside cs' t.size.toList)
    (hl : cs'.length = cs.length) (hne : cs' ≠ cs) :
    place cs' t.size.toList * t.format.bytesPerTexel + t.format.bytesPerTexel ≤
        place cs t.size.toList * t.format.bytesPerTexel ∨
      place cs t.size.toList * t.format.bytesPerTexel + t.format.bytesPerTexel ≤
        place cs' t.size.toList * t.format.bytesPerTexel := by
  have hplace : place cs' t.size.toList ≠ place cs t.size.toList :=
    fun he => hne (place_injective hc' hc hl he)
  rw [← Nat.succ_mul, ← Nat.succ_mul]
  obtain lt | lt := Nat.lt_or_gt_of_ne hplace
  · exact Or.inl (Nat.mul_le_mul_right _ lt)
  · exact Or.inr (Nat.mul_le_mul_right _ lt)

/-! ## Writing a texel -/

/-- The components are written one behind the other. -/
theorem apply_storeChannels {c : Channel} {parts : List Value} {runs : List (List UInt8)}
    (h : List.Forall₂ c.Writes parts runs)
    (start : Nat) (data : Array UInt8) : (storeChannels c start parts).apply data =
      (.ok (), Bytes.write data start runs.flatten) := by
  induction h generalizing start data with
  | nil => rfl
  | @cons v bytes parts runs hv _ ih =>
    have step : (storeChannels c start (v :: parts)).apply data =
        (storeChannels c (start + c.size) parts).apply (Bytes.write data start bytes) := by
      rw [storeChannels, hv.1]
      rfl
    rw [step, ih, List.flatten_cons, Bytes.write_append, hv.2]

theorem length_flatten {c : Channel} {runs : List (List UInt8)} (h : ∀ r ∈ runs, r.length = c.size) :
    runs.flatten.length = runs.length * c.size := by
  induction runs with
  | nil => simp
  | cons r runs ih =>
    rw [List.forall_mem_cons] at h
    rw [List.flatten_cons, List.length_append, h.1, ih h.2, List.length_cons, Nat.succ_mul, Nat.add_comm]

/-- The channels of a texel that has been written. -/
theorem channels_write {runs : List (List UInt8)} {start : Nat}
    (h : ∀ r ∈ runs, r.length = t.format.channel.size)
    (hend : start + runs.length * t.format.channel.size ≤ t.data.size) :
    channels { t with data := Bytes.write t.data start runs.flatten } start runs.length =
      runs.map t.format.channel.decode := by
  refine List.ext_getElem (by simp [channels]) fun i hi _ => ?_
  have hi : i < runs.length := by simpa [channels] using hi
  have split : runs.flatten = (runs.take i).flatten ++ runs[i] ++ (runs.drop (i + 1)).flatten := by
    rw [List.append_assoc, ← List.flatten_cons, ← List.flatten_append, List.getElem_cons_drop,
      List.take_append_drop]
  have before : (runs.take i).flatten.length = i * t.format.channel.size := by
    rw [length_flatten fun r hr => h r (List.mem_of_mem_take hr), List.length_take,
      Nat.min_eq_left (Nat.le_of_lt hi)]
  have fits : start + ((runs.take i).flatten ++ runs[i] ++ (runs.drop (i + 1)).flatten).length ≤
      t.data.size := by
    rw [← split, length_flatten h]
    exact hend
  have read := Bytes.read_write_piece t.data fits
  rw [← split, before, h _ (List.getElem_mem hi)] at read
  simp only [channels, List.getElem_map, List.getElem_range, read]

/-! ## Texels -/

/-- A component that the format does not have. -/
def missing (kind : ScalarKind) (i : Nat) : Value :=
  if i = 3 then (match kind with | .u32 => .u32 1 | .i32 => .i32 1 | _ => .f32 .one) else .zero kind

theorem forall₂_writes {c : Channel} {parts : List Value} (h : ∀ v ∈ parts, v.OfKind c.kind) :
    ∃ runs, List.Forall₂ c.Writes parts runs := by
  induction parts with
  | nil => exact ⟨[], .nil⟩
  | cons v parts ih =>
    rw [List.forall_mem_cons] at h
    obtain ⟨bytes, hv⟩ := Channel.writes_of_kind h.1
    obtain ⟨runs, hparts⟩ := ih h.2
    exact ⟨bytes :: runs, .cons hv hparts⟩

theorem mem_of_mem_swapped {f : TexelFormat} {parts : List Value} {x : Value} (h : x ∈ f.swapped parts) :
    x ∈ parts := by
  unfold TexelFormat.swapped at h
  split at h
  · simp only [List.mem_cons] at h ⊢
    tauto
  · exact h

theorem length_swapped (f : TexelFormat) (parts : List Value) :
    (f.swapped parts).length = parts.length := by
  unfold TexelFormat.swapped
  split <;> rfl

/-- A texture with other bytes. -/
def withData (t : Texture) (data : Array UInt8) : Texture := { t with data }

/-- A store writes one run of bytes. -/
theorem apply_store (hfull : t.Full) (hc : Inside cs t.size.toList) (hfour : v.components.length = 4)
    (hkind : ∀ x ∈ v.components, x.OfKind t.format.channel.kind) :
    ∃ runs : List (List UInt8), List.Forall₂ t.format.channel.Writes
        ((t.format.swapped v.components).take t.format.channelCount) runs ∧
      runs.length = t.format.channelCount ∧
      (store cs v).apply t = (.ok (), t.withData (Bytes.write t.data
        (place cs t.size.toList * t.format.bytesPerTexel) runs.flatten)) := by
  have kinds : ∀ x ∈ (t.format.swapped v.components).take t.format.channelCount,
      x.OfKind t.format.channel.kind :=
    fun x hx => hkind x (mem_of_mem_swapped (List.mem_of_mem_take hx))
  obtain ⟨runs, hruns⟩ := forall₂_writes kinds
  refine ⟨runs, hruns, ?_, ?_⟩
  · rw [← hruns.length_eq, List.length_take, length_swapped, hfour]
    cases t.format <;> rfl
  · have started : (store cs v).apply t = (Change.onPart t.data t.withData (storeChannels t.format.channel
        (place cs t.size.toList * t.format.bytesPerTexel)
        ((t.format.swapped v.components).take t.format.channelCount)) : Change Texture Unit).apply t := by
      change ((liftM (t.texelStart cs) >>= fun start => Change.onPart t.data t.withData
        (storeChannels t.format.channel start
          ((t.format.swapped v.components).take t.format.channelCount)) : Change Texture Unit).apply t) = _
      rw [texelStart_eq hfull hc]
      rfl
    rw [started]
    change (let (outcome, changed) := (storeChannels _ _ _).apply t.data; (outcome, t.withData changed)) = _
    rw [apply_storeChannels hruns]

/-- A texel that is apart from the run of bytes that is written. -/
theorem load_withData {others : List Int} {start : Nat} {bytes : List UInt8} (hfull : t.Full)
    (hc : Inside others t.size.toList)
    (happart : place others t.size.toList * t.format.bytesPerTexel + t.format.bytesPerTexel ≤ start ∨
      start + bytes.length ≤ place others t.size.toList * t.format.bytesPerTexel) :
    (t.withData (Bytes.write t.data start bytes)).load others = t.load others := by
  have full : (t.withData (Bytes.write t.data start bytes)).Full := by
    change _ ≤ (Bytes.write t.data start bytes).size
    rw [Bytes.size_write]
    exact hfull
  have start_eq := texelStart_eq hfull hc
  have start_eq' : (t.withData (Bytes.write t.data start bytes)).texelStart others = _ :=
    texelStart_eq full hc
  rw [load, load, start_eq, start_eq']
  have hend := hfull.end_le hc
  have same : (t.withData (Bytes.write t.data start bytes)).channels
        (place others t.size.toList * t.format.bytesPerTexel) t.format.channelCount =
      t.channels (place others t.size.toList * t.format.bytesPerTexel) t.format.channelCount := by
    refine List.map_congr_left fun i hi => congrArg t.format.channel.decode ?_
    change (Bytes.read? (Bytes.write t.data start bytes) (place others t.size.toList *
      t.format.bytesPerTexel + i * t.format.channel.size) t.format.channel.size).getD [] = _
    have hi : i * t.format.channel.size + t.format.channel.size ≤ t.format.bytesPerTexel := by
      rw [← Nat.succ_mul, TexelFormat.bytesPerTexel, Nat.mul_comm]
      exact Nat.mul_le_mul_left _ (List.mem_range.1 hi)
    exact Bytes.read_congr (by omega) (Bytes.size_write ..) fun j _ hj =>
      Bytes.getElem?_write_outside _ (by omega)
  exact congrArg (fun channels => Except.ok (Value.vector
    (padded t.format.channel (t.format.swapped channels)))) same

/-- A format whose channels hold a component as it is stores the channels in their order. -/
theorem swapped_of_holds {x : Value} (h : t.format.channel.Holds x) (parts : List Value) :
    t.format.swapped parts = parts := by
  cases hf : t.format <;> rw [hf] at h <;> first | rfl | (cases x <;> exact h.elim)

/-- The components of a texel, as far as the format has them. -/
theorem padded_take (f : TexelFormat) {parts : List Value} (h : parts.length = 4) :
    padded f.channel (parts.take f.channelCount) = (List.range 4).map fun i =>
      if i < f.channelCount then parts.getD i .void else missing f.channel.kind i := by
  match parts, h with
  | [a, b, c, d], _ => cases f <;> rfl

theorem map_decode {c : Channel} {parts : List Value} {runs : List (List UInt8)}
    (h : List.Forall₂ c.Writes parts runs)
    (holds : ∀ v ∈ parts, c.Holds v) : runs.map c.decode = parts := by
  induction h with
  | nil => rfl
  | cons hv _ ih =>
    rw [List.forall_mem_cons] at holds
    rw [List.map_cons, Channel.decode_of_writes holds.1 hv, ih holds.2]

theorem length_of_forall₂ {c : Channel} {parts : List Value} {runs : List (List UInt8)}
    (h : List.Forall₂ c.Writes parts runs) :
    ∀ r ∈ runs, r.length = c.size := by
  induction h with
  | nil => exact nofun
  | cons hv _ ih => exact List.forall_mem_cons.2 ⟨hv.2, ih⟩

/-- Four components of the kind of the format are stored. Only bytes of the one texel change, so every
other texel is loaded as before, and the texel itself is loaded as the components that the format has
and `0`, `0` and `1` for green, blue and alpha if it has none, provided that the channels hold the
components as they are. -/
theorem store_texel
    (hdata : max t.size.x 1 * max t.size.y 1 * max t.size.z 1 * t.format.bytesPerTexel ≤ t.data.size)
    {coords : List Int} (hc : Inside coords t.size.toList) (hfour : v.components.length = 4)
    (hkind : ∀ x ∈ v.components, x.OfKind t.format.channel.kind) :
    ∃ t', (store coords v).apply t = (.ok (), t') ∧ t' = t.withData t'.data ∧
      t'.data.size = t.data.size ∧
      (∀ others, Inside others t.size.toList → others.length = coords.length → others ≠ coords →
        t'.load others = t.load others) ∧
      ((∀ x ∈ v.components, t.format.channel.Holds x) →
        t'.load coords = .ok (.vector ((List.range 4).map fun i =>
          if i < t.format.channelCount then v.components.getD i .void
          else missing t.format.channel.kind i))) := by
  have hfull : t.Full := by
    unfold Full
    rwa [Extent.toList, count, count, count, count, Nat.mul_one, ← Nat.mul_assoc]
  obtain ⟨runs, hruns, hlength, hstore⟩ := apply_store hfull hc hfour hkind
  have widths := length_of_forall₂ hruns
  have bytes : runs.flatten.length = t.format.bytesPerTexel := by
    rw [length_flatten widths, hlength, TexelFormat.bytesPerTexel, Nat.mul_comm]
  refine ⟨_, hstore, rfl, Bytes.size_write .., fun others ho hl hne => ?_, fun holds => ?_⟩
  · refine load_withData hfull ho ?_
    rw [bytes]
    exact apart hc ho hl hne
  · obtain ⟨x, hx⟩ := List.exists_mem_of_length_pos (show 0 < v.components.length by omega)
    rw [swapped_of_holds (holds x hx)] at hruns
    generalize hd : Bytes.write t.data _ runs.flatten = data at hstore
    have full : (t.withData data).Full := by
      change _ ≤ data.size
      rw [← hd, Bytes.size_write]
      exact hfull
    have start_eq : (t.withData data).texelStart coords = _ := texelStart_eq full hc
    have read : (t.withData data).channels (place coords t.size.toList * t.format.bytesPerTexel)
        t.format.channelCount = v.components.take t.format.channelCount := by
      rw [← map_decode hruns fun y hy => holds y (List.mem_of_mem_take hy), ← hlength, ← hd]
      refine channels_write widths ?_
      rw [hlength, Nat.mul_comm t.format.channelCount]
      exact hfull.end_le hc
    rw [load, start_eq]
    change Except.ok (Value.vector (padded t.format.channel (t.format.swapped
      ((t.withData data).channels (place coords t.size.toList * t.format.bytesPerTexel)
        t.format.channelCount)))) = _
    rw [read, swapped_of_holds (holds x hx), padded_take t.format hfour]

/-- Two by two by two texels of eight bytes each, and a value whose first two components fit in. -/
theorem store_texel_corner :
    let t : Texture := { data := (List.replicate 64 7).toArray, size := ⟨2, 2, 2⟩, format := .rg32sint }
    let v : Value := .vector [.i32 (-5), .i32 300, .i32 1, .i32 2]
    (∃ t', (store [1, 0, 1] v).apply t = (.ok (), t') ∧ t'.load [0, 1, 1] = t.load [0, 1, 1] ∧
      t'.load [1, 0, 1] = .ok (.vector [.i32 (-5), .i32 300, .i32 0, .i32 1])) := by
  intro t v
  have inside : Inside [1, 0, 1] t.size.toList := by simp [Inside, t, Extent.toList]
  obtain ⟨t', hstore, -, -, others, same⟩ := store_texel (t := t) (v := v)
    (by decide) inside rfl (by simp [v, Value.components, Value.OfKind, t,
      TexelFormat.channel, Channel.kind])
  refine ⟨t', hstore, others [0, 1, 1] (by simp [Inside, t, Extent.toList]) rfl (by decide), ?_⟩
  exact same (by simp [v, Value.components, Channel.Holds, t, TexelFormat.channel])

end Texture

end Wgsl
