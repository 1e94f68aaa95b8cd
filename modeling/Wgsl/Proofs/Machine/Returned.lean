import Wgsl.Proofs.Machine.History

/-! # What the host gets back

A dispatch moves resources of the host into memory and hands them back at the end. The host has its
resources again then, in the same slots, of the same kinds and of the same sizes. A refused dispatch
has not touched them at all.

A variable for a sampler is the exception: it takes whatever is in its slot, and a sampler is handed
back.

* `Hosted.dispatch`: a dispatch that takes resources out of the host's and puts them back in place.
* `Hosted.run_dispatch`: it does what `Attempt.dispatch` does.
* `Machine.Leaves`, `Machine.HoldsFor`: where the resource of a slot is.
* `Hosted.conserves`: what the host gets back.
-/

namespace Wgsl
set_option autoImplicit false

/-! ## Dispatching in place -/

/-- A computation on the machine and on the host's resources that may refuse. What it did to either
before stays. -/
abbrev Hosted := ExceptT Fault (StateT BindGroups Exec)

namespace Hosted

variable {α β : Type}

/-- A computation that leaves the host's resources alone. -/
def apart (x : Attempt α) : Hosted α := ExceptT.mk fun g => do return (← x.run, g)

/-- A change of the machine and of the host's resources. -/
def change (f : Machine → BindGroups → Machine × BindGroups) : Hosted Unit :=
  ExceptT.lift fun g => modifyGet fun m => (((), (f m g).2), (f m g).1)

/-- What a dispatch does with the resources. -/
def onResources (s : Shader) (plan : DispatchPlan) : Hosted Unit := do
  s.reflection.resources.forM fun r => change (Machine.bindResource r)
  apart (Attempt.ofExec (Exec.runInvocations s plan plan.invocationCount 0))
  change fun m g => (m.unbound, m.handBack g)

/-- Runs an entry point over a grid of workgroups. The resource of each variable is taken from the
host when the variable is bound. -/
def dispatch (s : Shader) (entry : String) (workgroups : Extent) (config : Config) :
    Hosted Unit := do
  let (f, size) ← apart (Attempt.started s entry config)
  onResources s ⟨f, workgroups, size⟩

variable {g : BindGroups} {m : Machine}

theorem run_bind (x : Hosted α) (f : α → Hosted β) : (x >>= f).run g m = (x.run g m >>= fun r =>
    match r.1.1 with
    | .ok a => (f a).run r.1.2 r.2
    | .error e => .ok ((.error e, r.1.2), r.2)) := by
  rw [ExceptT.run_bind]
  refine congrArg _ (funext fun r => ?_)
  obtain ⟨⟨outcome, g'⟩, m'⟩ := r
  cases outcome <;> rfl

theorem run_apart (x : Attempt α) :
    (apart x).run g m = (x.run m >>= fun r => .ok ((r.1, g), r.2)) := rfl

theorem run_ofExec (x : Exec α) : (apart (Attempt.ofExec x)).run g m =
    (x m >>= fun r => .ok ((.ok r.1, g), r.2)) := by
  rw [run_apart, Attempt.ofExec, ExceptT.run_lift, map_eq_pure_bind]
  change ((x m >>= _) >>= _) = _
  cases x m <;> rfl

theorem run_bindResources (resources : List Resource) :
    (resources.forM fun r => change (Machine.bindResource r)).run g m =
      .ok ((.ok (), (m.bindResources resources g).2), (m.bindResources resources g).1) := by
  induction resources generalizing g m with
  | nil => rfl
  | cons r resources ih =>
    rw [List.forM_eq_forM, List.forM_cons, run_bind]
    exact ih

theorem run_onResources (s : Shader) (plan : DispatchPlan) : (onResources s plan).run g m =
    (Exec.onResources s plan g m >>= fun r => .ok ((.ok (), r.1), r.2)) := by
  have bound : Exec.onResources s plan g m =
      (Exec.runInvocations s plan plan.invocationCount 0
        (m.bindResources s.reflection.resources g).1 >>= fun r =>
          .ok (r.2.handBack (m.bindResources s.reflection.resources g).2, r.2.unbound)) := rfl
  rw [onResources, run_bind, run_bindResources, bound]
  change ((apart _ >>= _ : Hosted Unit).run _ _) = _
  rw [run_bind, run_ofExec]
  cases Exec.runInvocations s plan plan.invocationCount 0
    (m.bindResources s.reflection.resources g).1 <;> rfl

/-- A dispatch gives back the resources that are left where it ends. Where it is refused, they are
left as they were. -/
theorem run_dispatch (s : Shader) (entry : String) (workgroups : Extent) (config : Config) :
    (dispatch s entry workgroups config).run g m =
      ((Attempt.dispatch s entry workgroups g config).run m >>= fun r =>
        match r.1 with
        | .ok g' => .ok ((.ok (), g'), r.2)
        | .error f => .ok ((.error f, g), r.2)) := by
  rw [Attempt.run_dispatch, dispatch, run_bind, run_apart]
  cases (Attempt.started s entry config).run m with
  | error e => rfl
  | ok r =>
    obtain ⟨outcome, m₁⟩ := r
    cases outcome with
    | error f => rfl
    | ok found =>
      obtain ⟨f, size⟩ := found
      change (onResources s ⟨f, workgroups, size⟩).run g m₁ =
        ((Except.ok <$> Exec.onResources s ⟨f, workgroups, size⟩ g) m₁ >>= _)
      rw [run_onResources, map_eq_pure_bind]
      change _ = ((Exec.onResources s ⟨f, workgroups, size⟩ g m₁ >>= _) >>= _)
      cases Exec.onResources s ⟨f, workgroups, size⟩ g m₁ <;> rfl

end Hosted

/-! ## Resources of one form -/

/-- Resources of one kind with as many bytes each, and textures of one size and format. -/
def HostResource.SameForm : HostResource → HostResource → Prop
  | .uniform bytes, .uniform bytes' => bytes'.size = bytes.size
  | .storage bytes, .storage bytes' => bytes'.size = bytes.size
  | .texture data size format, .texture data' size' format' =>
    data'.size = data.size ∧ size' = size ∧ format' = format
  | .sampler, .sampler => True
  | _, _ => False

theorem HostResource.SameForm.refl (h : HostResource) : h.SameForm h := by
  cases h <;> simp [SameForm]

/-- Whether a variable takes such a resource from the host. A buffer may be uniform or not; a sampler
variable takes anything. -/
def ResourceKind.takes : ResourceKind → HostResource → Bool
  | .uniform, .uniform _ | .uniform, .storage _ => true
  | .storage, .uniform _ | .storage, .storage _ => true
  | .texture, .texture .. | .storageTexture, .texture .. => true
  | .sampler, _ => true
  | _, _ => false

/-- What is kept for the host when a variable takes a resource. -/
def ResourceKind.kept : ResourceKind → HostResource → HostResource
  | .sampler, _ => .sampler
  | _, h => h

namespace Reflection

/-- The variable that takes the resource of a slot: the first that can. -/
def taker? (r : Reflection) (slot : BindSlot) (h : HostResource) : Option Resource :=
  r.resources.find? fun v => v.slot = slot ∧ v.kind.takes h

/-- The resource is lost: the variable that takes it is for a sampler. -/
def Displaces (r : Reflection) (slot : BindSlot) (h : HostResource) : Prop :=
  ∃ v, r.taker? slot h = some v ∧ v.kind = .sampler

end Reflection

/-! ## Where a resource is -/

namespace Machine

variable {m n : Machine} {g : BindGroups} {r : Resource} {slot : BindSlot} {h : HostResource}
  {x : Bound}

/-- No variable has taken the resource of the slot. -/
def Leaves (m : Machine) (slot : BindSlot) : Prop := ∀ x ∈ m.bound, x.slot ≠ slot

/-- The resource of the slot is held by the machine. -/
structure HoldsFor (m : Machine) (slot : BindSlot) (h : HostResource) : Prop where
  noted : ∃ x ∈ m.bound, x.slot = slot
  held : ∀ x ∈ m.bound, x.slot = slot → m.Holds x ∧ m.released x = some (slot, h)

theorem holds_congr (h : n.memory = m.memory) : n.Holds x ↔ m.Holds x := by
  cases x <;> simp only [Holds, h]

theorem released_congr (h : n.memory = m.memory) : n.released x = m.released x := by
  cases x <;> simp only [released, h]

/-- Binding a variable takes the resource of its slot, or nothing. -/
theorem bindResource_eq (m : Machine) (r : Resource) (g : BindGroups) :
    (∃ h, g.find? r.slot = some h ∧ r.kind.takes h = true ∧
      m.bindResource r g = (m.take r (r.kind.kept h), g.erase r.slot)) ∨
    ((∀ h, g.find? r.slot = some h → r.kind.takes h = false) ∧
      (m.bindResource r g).1.bound = m.bound ∧ (m.bindResource r g).1.memory = m.memory ∧
      (m.bindResource r g).2 = g) := by
  have hslot : g.find? r.slot = g.find? ⟨r.group, r.binding⟩ := rfl
  unfold bindResource
  dsimp only
  rw [hslot]
  cases hk : r.kind <;> rcases g.find? ⟨r.group, r.binding⟩ with _ | ⟨_ | _ | _ | _⟩ <;>
    first
    | exact Or.inl ⟨_, rfl, rfl, rfl⟩
    | exact Or.inr ⟨by rintro _ ⟨⟩; rfl, rfl, rfl, rfl⟩
    | exact Or.inr ⟨nofun, rfl, rfl, rfl⟩

theorem Leaves.bindResource (hl : m.Leaves slot)
    (hnot : ∀ h, g.find? slot = some h → ¬(r.slot = slot ∧ r.kind.takes h = true)) :
    (m.bindResource r g).1.Leaves slot ∧ (m.bindResource r g).2.find? slot = g.find? slot := by
  obtain ⟨h, hh, ht, heq⟩ | ⟨-, hbound, -, hrest⟩ := bindResource_eq m r g
  · have other : r.slot ≠ slot := by
      rintro rfl
      exact hnot h hh ⟨rfl, ht⟩
    rw [heq]
    refine ⟨fun x hx => ?_, BindGroups.find?_erase_of_ne other.symm⟩
    rw [bound_take, List.mem_append, List.mem_singleton] at hx
    obtain hx | rfl := hx
    · exact hl x hx
    · rw [slot_entry]
      exact other
  · refine ⟨fun x hx => hl x (hbound ▸ hx), by rw [hrest]⟩

theorem Leaves.taken (hl : m.Leaves slot) (hr : r.slot = slot) (hh : g.find? slot = some h)
    (ht : r.kind.takes h = true) :
    (m.bindResource r g).1.HoldsFor slot (r.kind.kept h) ∧
      (m.bindResource r g).2.find? slot = none := by
  subst hr
  obtain ⟨h', hh', -, heq⟩ | ⟨hnot, -⟩ := bindResource_eq m r g
  · rw [hh] at hh'
    cases hh'
    rw [heq]
    refine ⟨⟨⟨m.entry r (r.kind.kept h), ?_, slot_entry⟩, fun x hx hslot => ?_⟩,
      BindGroups.find?_erase_self⟩
    · rw [bound_take]
      exact List.mem_append_right _ List.mem_cons_self
    · rw [bound_take, List.mem_append, List.mem_singleton] at hx
      obtain hx | rfl := hx
      · exact (hl x hx hslot).elim
      · exact ⟨holds_entry, released_entry⟩
  · rw [hnot h hh] at ht
    cases ht

theorem HoldsFor.bindResource (hh : m.HoldsFor slot h) (hg : g.find? slot = none) :
    (m.bindResource r g).1.HoldsFor slot h ∧ (m.bindResource r g).2.find? slot = none := by
  obtain ⟨h', hh', -, heq⟩ | ⟨-, hbound, hmemory, hrest⟩ := bindResource_eq m r g
  · have other : r.slot ≠ slot := by
      rintro rfl
      rw [hg] at hh'
      cases hh'
    rw [heq]
    refine ⟨⟨?_, fun x hx hslot => ?_⟩, by rw [BindGroups.find?_erase_of_ne other.symm, hg]⟩
    · obtain ⟨x, hx, hslot⟩ := hh.noted
      exact ⟨x, by rw [bound_take]; exact List.mem_append_left _ hx, hslot⟩
    · rw [bound_take, List.mem_append, List.mem_singleton] at hx
      obtain hx | rfl := hx
      · obtain ⟨holds, released⟩ := hh.held x hx hslot
        exact ⟨holds_take holds, (released_take holds).trans released⟩
      · rw [slot_entry] at hslot
        exact (other hslot).elim
  · refine ⟨⟨hbound ▸ hh.noted, fun x hx hslot => ?_⟩, by rw [hrest, hg]⟩
    have same := hh.held x (hbound ▸ hx) hslot
    rwa [← released_congr hmemory, ← holds_congr hmemory] at same

theorem bindResources_cons (r : Resource) (resources : List Resource) (m : Machine)
    (g : BindGroups) : m.bindResources (r :: resources) g =
      (m.bindResource r g).1.bindResources resources (m.bindResource r g).2 := rfl

theorem HoldsFor.bindResources (hh : m.HoldsFor slot h) (hg : g.find? slot = none)
    (resources : List Resource) :
    (m.bindResources resources g).1.HoldsFor slot h ∧
      (m.bindResources resources g).2.find? slot = none := by
  induction resources generalizing m g with
  | nil => exact ⟨hh, hg⟩
  | cons r resources ih =>
    obtain ⟨hh', hg'⟩ := hh.bindResource (r := r) hg
    exact ih hh' hg'

/-- The resource stays with the host where no variable takes it. -/
theorem Leaves.bindResources (hl : m.Leaves slot) {resources : List Resource}
    (hnot : ∀ h, g.find? slot = some h → ∀ r ∈ resources, ¬(r.slot = slot ∧ r.kind.takes h = true)) :
    (m.bindResources resources g).1.Leaves slot ∧
      (m.bindResources resources g).2.find? slot = g.find? slot := by
  induction resources generalizing m g with
  | nil => exact ⟨hl, rfl⟩
  | cons r resources ih =>
    obtain ⟨hl', hg'⟩ := hl.bindResource fun h hh => hnot h hh r List.mem_cons_self
    obtain ⟨rest, same⟩ := ih hl' fun h hh v hv =>
      hnot h (hg' ▸ hh) v (List.mem_cons_of_mem _ hv)
    exact ⟨rest, same.trans hg'⟩

/-- The first variable that can takes the resource. -/
theorem Leaves.takenBy (hl : m.Leaves slot) (hh : g.find? slot = some h) {resources : List Resource}
    {v : Resource}
    (hv : resources.find? (fun v => v.slot = slot ∧ v.kind.takes h) = some v) :
    (m.bindResources resources g).1.HoldsFor slot (v.kind.kept h) ∧
      (m.bindResources resources g).2.find? slot = none := by
  induction resources generalizing m g with
  | nil => cases hv
  | cons r resources ih =>
    rw [List.find?_cons] at hv
    split at hv
    · rename_i hr
      cases hv
      obtain ⟨hslot, ht⟩ := of_decide_eq_true hr
      obtain ⟨held, gone⟩ := hl.taken hslot hh ht
      exact held.bindResources gone resources
    · rename_i hr
      obtain ⟨hl', hg'⟩ := hl.bindResource (r := r) fun h' hh' hslot => by
        rw [hh] at hh'
        cases hh'
        exact of_decide_eq_false hr hslot
      exact ih hl' (hg'.trans hh) hv

/-! ## Handing back -/

/-- However memory was written to, what is handed back has the form of what was taken. -/
theorem Retains.released (hr : m.Retains n) (hx : m.Holds x) (hm : m.released x = some (slot, h)) :
    ∃ h', n.released x = some (slot, h') ∧ h.SameForm h' := by
  obtain ⟨buffers, textures⟩ := Prod.mk.inj hr.outline
  cases x with
  | buffer s i uniform =>
    have length : (n.memory.buffers.map Array.size)[i]? = (m.memory.buffers.map Array.size)[i]? :=
      congrArg (·[i]?) buffers
    rw [Array.getElem?_map, Array.getElem?_map, Array.getElem?_eq_getElem hx] at length
    obtain ⟨bytes, hbytes, hsize⟩ := Option.map_eq_some_iff.1 length
    unfold Machine.released at hm ⊢
    dsimp only at hm ⊢
    rw [Array.getElem?_eq_getElem hx] at hm
    rw [hbytes]
    cases hm
    cases uniform <;> exact ⟨_, rfl, hsize⟩
  | texture s i =>
    have outlines : (n.memory.textures.map Texture.outline)[i]? =
        (m.memory.textures.map Texture.outline)[i]? := congrArg (·[i]?) textures
    rw [Array.getElem?_map, Array.getElem?_map, Array.getElem?_eq_getElem hx] at outlines
    obtain ⟨t, ht, hsame⟩ := Option.map_eq_some_iff.1 outlines
    let back (t : Texture) : BindSlot × HostResource := (s, .texture t.data t.size t.format)
    change (m.memory.textures[i]?).map back = _ at hm
    change ∃ h', (n.memory.textures[i]?).map back = _ ∧ _
    rw [Array.getElem?_eq_getElem hx] at hm
    rw [ht]
    cases hm
    obtain ⟨hdata, hrest⟩ := Prod.mk.inj hsame
    obtain ⟨hsize, hformat⟩ := Prod.mk.inj hrest
    exact ⟨_, rfl, hdata, hsize, hformat⟩
  | sampler s =>
    cases hm
    exact ⟨.sampler, rfl, trivial⟩

/-- What was left with the host is there after handing back. -/
theorem Leaves.find?_handBack (hl : m.Leaves slot) (hr : m.Retains n) :
    (n.handBack g).find? slot = g.find? slot := by
  rw [Machine.find?_handBack, hr.bound]
  refine List.foldlRecOn (motive := fun found => found = g.find? slot) m.bound _ rfl
    fun found hfound x hx => ?_
  rw [handed, if_neg (hl x hx)]
  exact hfound

/-- What was held comes back in its form. -/
theorem HoldsFor.find?_handBack (hh : m.HoldsFor slot h) (hr : m.Retains n) :
    ∃ h', (n.handBack g).find? slot = some h' ∧ h.SameForm h' := by
  rw [Machine.find?_handBack, hr.bound]
  -- the last note of the slot decides, and there is one
  suffices last : ∀ (bound : List Bound) (found : Option HostResource), (∀ x ∈ bound, x ∈ m.bound) →
      ((∃ x ∈ bound, x.slot = slot) ∨ ∃ h', found = some h' ∧ h.SameForm h') →
      ∃ h', bound.foldl (n.handed slot) found = some h' ∧ h.SameForm h' from
    last m.bound _ (fun _ hx => hx) (Or.inl hh.noted)
  intro bound
  induction bound with
  | nil =>
    intro found _ hfound
    exact hfound.resolve_left fun ⟨x, hx, _⟩ => List.not_mem_nil hx
  | cons x bound ih =>
    intro found hin hfound
    refine ih _ (fun y hy => hin y (List.mem_cons_of_mem _ hy)) ?_
    by_cases hslot : x.slot = slot
    · obtain ⟨holds, released⟩ := hh.held x (hin x List.mem_cons_self) hslot
      obtain ⟨h', hn, hsame⟩ := hr.released holds released
      refine Or.inr ⟨h', ?_, hsame⟩
      rw [handed, if_pos hslot, hn]
      rfl
    · rw [handed, if_neg hslot]
      refine hfound.imp_left fun ⟨y, hy, hys⟩ => ⟨y, ?_, hys⟩
      exact (List.mem_cons.1 hy).resolve_left fun e => hslot (e ▸ hys)

end Machine

/-! ## What the host gets back -/

/-- The host has its resources again, in the same slots and forms, but for those that a sampler took
the place of. Slots that no variable declares are as they were. -/
structure Reflection.Conserves (r : Reflection) (g g' : BindGroups) : Prop where
  empty : ∀ slot, g.find? slot = none → g'.find? slot = none
  form : ∀ slot h, g.find? slot = some h →
    ∃ h', g'.find? slot = some h' ∧ (h.SameForm h' ∨ r.Displaces slot h ∧ h' = .sampler)
  undeclared : ∀ slot, (∀ v ∈ r.resources, v.slot ≠ slot) → g'.find? slot = g.find? slot

theorem Reflection.Conserves.refl (r : Reflection) (g : BindGroups) : r.Conserves g g where
  empty _ h := h
  form _ h hh := ⟨h, hh, Or.inl (.refl h)⟩
  undeclared _ _ := rfl

theorem ResourceKind.kept_of_ne {k : ResourceKind} (hk : k ≠ .sampler) (h : HostResource) :
    k.kept h = h := by
  cases k <;> first | rfl | exact (hk rfl).elim

variable {s : Shader} {g g' : BindGroups} {m m' : Machine} {entry : String} {config : Config}

/-- Whatever runs between binding and handing back, as long as it holds on to what is bound. -/
theorem Machine.conserves_handBack (hm : m.bound = []) {n : Machine}
    (hr : (m.bindResources s.reflection.resources g).1.Retains n) :
    s.reflection.Conserves g (n.handBack (m.bindResources s.reflection.resources g).2) ∧
      ∀ slot h, g.find? slot = some h → s.reflection.Displaces slot h →
        (n.handBack (m.bindResources s.reflection.resources g).2).find? slot = some .sampler := by
  have start : ∀ slot, m.Leaves slot := by
    intro slot x hx
    rw [hm] at hx
    cases hx
  have kept : ∀ slot, (∀ h, g.find? slot = some h → ∀ r ∈ s.reflection.resources,
      ¬(r.slot = slot ∧ r.kind.takes h = true)) →
      (n.handBack (m.bindResources s.reflection.resources g).2).find? slot = g.find? slot := by
    intro slot hnot
    obtain ⟨left, same⟩ := (start slot).bindResources hnot
    exact (left.find?_handBack hr).trans same
  have taken : ∀ slot h v, g.find? slot = some h → s.reflection.taker? slot h = some v →
      ∃ h', (n.handBack (m.bindResources s.reflection.resources g).2).find? slot = some h' ∧
        (v.kind.kept h).SameForm h' := by
    intro slot h v hh hv
    exact ((start slot).takenBy hh hv).1.find?_handBack hr
  refine ⟨⟨fun slot hnone => ?_, fun slot h hh => ?_, fun slot hnot => ?_⟩, fun slot h hh hd => ?_⟩
  · exact (kept slot fun h hh => by rw [hnone] at hh; cases hh).trans hnone
  · cases hv : s.reflection.taker? slot h with
    | none =>
      refine ⟨h, (kept slot fun h' hh' r hr' => ?_).trans hh, Or.inl (.refl h)⟩
      rw [hh] at hh'
      cases hh'
      exact of_decide_eq_false (Bool.eq_false_iff.2 (List.find?_eq_none.1 hv r hr'))
    | some v =>
      obtain ⟨h', hh', hsame⟩ := taken slot h v hh hv
      refine ⟨h', hh', ?_⟩
      by_cases hk : v.kind = .sampler
      · rw [hk] at hsame
        refine Or.inr ⟨⟨v, hv, hk⟩, ?_⟩
        cases h' <;> first | rfl | exact hsame.elim
      · exact Or.inl (ResourceKind.kept_of_ne hk h ▸ hsame)
  · exact kept slot fun h _ r hr' hslot => hnot r hr' hslot.1
  · obtain ⟨v, hv, hk⟩ := hd
    obtain ⟨h', hh', hsame⟩ := taken slot h v hh hv
    rw [hk] at hsame
    rw [hh']
    cases h' <;> first | rfl | exact hsame.elim

/-- A module with a type too large to lay out is refused before anything is done. -/
theorem Attempt.started_of_layoutErrors {message : String} {rest : List String}
    (hl : s.reflection.layoutErrors = message :: rest) :
    (started s entry config).run m = .ok (.error (.layout message), m) := by
  unfold started
  rw [hl]
  rfl

theorem Exec.conserves_onResources {plan : DispatchPlan} (hentry : s.function? entry = some plan.entry)
    (hm : m.bound = []) (h : onResources s plan g m = .ok (g', m')) :
    s.reflection.Conserves g g' ∧ (∀ slot r, g.find? slot = some r →
      s.reflection.Displaces slot r → g'.find? slot = some .sampler) ∧ m'.bound = [] := by
  have shader : Conduct.retaining.AdmitsShader s := Conduct.admitsShader_of_all (fun _ => trivial) s
  have bound : onResources s plan g m = (runInvocations s plan plan.invocationCount 0
      (m.bindResources s.reflection.resources g).1 >>= fun r =>
        .ok (r.2.handBack (m.bindResources s.reflection.resources g).2, r.2.unbound)) := rfl
  rw [bound] at h
  obtain ⟨⟨_, n⟩, hrun, hend⟩ := Fault.bind_ok h
  cases hend
  have retained : (m.bindResources s.reflection.resources g).1.Retains n :=
    Conduct.inside_runInvocations shader hentry _ 0 _ _ _ hrun
  obtain ⟨conserved, displaced⟩ := Machine.conserves_handBack hm retained
  exact ⟨conserved, displaced, rfl⟩

/-- However a dispatch ends, the host has its resources again: a refused one has not touched them, and
after any other they are in the same slots and forms, but for those that a variable for a sampler has
taken. The machine keeps nothing. -/
theorem Hosted.conserves (hm : m.bound = []) {workgroups : Extent}
    {outcome : Except Fault Unit}
    (h : (dispatch s entry workgroups config).run g m = .ok ((outcome, g'), m')) :
    (∀ f, outcome = .error f → g' = g) ∧ s.reflection.Conserves g g' ∧
      (outcome = .ok () → ∀ slot r, g.find? slot = some r → s.reflection.Displaces slot r →
        g'.find? slot = some .sampler) ∧ m'.bound = [] := by
  rw [dispatch, run_bind, run_apart] at h
  obtain ⟨_, hstart, h⟩ := Fault.bind_ok h
  obtain ⟨⟨found, m₁⟩, hstarted, hr⟩ := Fault.bind_ok hstart
  cases hr
  cases hl : s.reflection.layoutErrors with
  | cons message rest =>
    rw [Attempt.started_of_layoutErrors hl] at hstarted
    cases hstarted
    cases h
    exact ⟨fun _ _ => rfl, .refl _ _, nofun, hm⟩
  | nil =>
    have unbound : m₁.bound = [] := (Attempt.retains_started hl hstarted).bound.trans hm
    cases found with
    | error f =>
      cases h
      exact ⟨fun _ _ => rfl, .refl _ _, nofun, unbound⟩
    | ok found =>
      obtain ⟨f, size⟩ := found
      change (onResources s ⟨f, workgroups, size⟩).run g m₁ = _ at h
      rw [run_onResources] at h
      obtain ⟨⟨g₁, m₂⟩, hrun, h⟩ := Fault.bind_ok h
      cases h
      have hentry := Attempt.function?_of_started hl hstarted
      obtain ⟨conserved, displaced, unbound'⟩ := Exec.conserves_onResources hentry unbound hrun
      refine ⟨fun _ hf => ?_, conserved, fun _ => displaced, unbound'⟩
      cases hf

/-- How the first dispatch of a module ends, and where it leaves the resources of the host. -/
def Hosted.first (p : Program) (entry : String) (g : BindGroups) :
    Except Fault (Except Fault Unit × BindGroups) := do
  let (s, l) ← Shader.ofProgram p
  return (← (dispatch s entry ⟨1, 1, 1⟩ []).run g { layouts := l }).1

theorem Hosted.of_first {p : Program} {outcome : Except Fault Unit}
    (h : first p entry g = .ok (outcome, g')) : ∃ s l m', Shader.ofProgram p = .ok (s, l) ∧
      (dispatch s entry ⟨1, 1, 1⟩ []).run g { layouts := l } = .ok ((outcome, g'), m') := by
  obtain ⟨⟨s, l⟩, hp, h⟩ := Fault.bind_ok h
  obtain ⟨⟨_, m'⟩, hrun, h⟩ := Fault.bind_ok h
  cases h
  exact ⟨s, l, m', hp, hrun⟩

/-- The counter that is counted comes back as a buffer of its length, the other one as it was. -/
theorem Hosted.conserves_twoCounters : ∃ s l m', Shader.ofProgram twoCounters = .ok (s, l) ∧
    (dispatch s "main" ⟨1, 1, 1⟩ []).run (counterHost 1 2) { layouts := l } =
      .ok ((.ok (), counterHost 2 2), m') ∧
    s.reflection.Conserves (counterHost 1 2) (counterHost 2 2) ∧ m'.bound = [] := by
  have ran : first twoCounters "main" (counterHost 1 2) = .ok (.ok (), counterHost 2 2) := by cbv
  obtain ⟨s, l, m', hp, hrun⟩ := of_first ran
  obtain ⟨-, conserved, -, unbound⟩ := conserves rfl hrun
  exact ⟨s, l, m', hp, hrun, conserved, unbound⟩

/-! ## A buffer in the place of a sampler -/

/-- A module with a variable for a sampler. -/
def oneSampler : Program where
  declarations := [
    .value .var {
      name := "s", type := some (.named 0 [] "sampler"), storage := none, access := none
      value := none, attributes := [], line := 0 },
    .function {
      name := "f", args := [], returnType := none, returnAttributes := []
      attributes := [.mk "workgroup_size" [.literal ⟨0, 0⟩ (.int 1 none)] 0], body := []
      startLine := 0, endLine := 0 }]

/-- A host with a buffer in the slot of the sampler. -/
def bufferHost : BindGroups := ⟨[(⟨0, 0⟩, .uniform #[1, 2, 3, 4])]⟩

/-- The buffer is lost: the host gets a sampler back. -/
theorem Hosted.displaced_buffer : ∃ s l m', Shader.ofProgram oneSampler = .ok (s, l) ∧
    (dispatch s "f" ⟨1, 1, 1⟩ []).run bufferHost { layouts := l } =
      .ok ((.ok (), ⟨[(⟨0, 0⟩, .sampler)]⟩), m') :=
  ⟨_, _, _, rfl, rfl⟩

end Wgsl
