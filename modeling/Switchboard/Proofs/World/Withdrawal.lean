/-
  Switchboard.Proofs.World.Withdrawal — is a withdrawal final?

  A registration goes from active to unregistering and from there to invalid, and no move takes it
  back (`Phase.Next`). Once it is invalid nothing in the world yields it any more (`Gone`): no
  ledger has an entry for it, a `get` of it has no object to give, a lookup that starts now does
  not come upon it, and to replace its properties or to withdraw it again is refused. That holds
  in every later world, whatever was in flight when it was withdrawn; and what happens later
  counts no use of it, asks its factory for no object and grants none (`withdrawal_is_final`).
-/

import Switchboard.Proofs.World.Call

namespace Switchboard

variable {α : Type}

inductive Phase.Next : Option Phase → Option Phase → Prop
  | same (p : Option Phase) : Next p p
  | published : Next none (some .active)
  | retired : Next (some .active) (some .unregistering)
  | drained : Next (some .unregistering) (some .invalid)

/-- Does it tell that a use of `h` was counted, that its factory is asked for an object, or that
    one was granted? -/
def Occurrence.binds (h : Handle) : Occurrence α → Bool
  | asked (.supply t _) => t == h
  | acquired _ _ ref | decided _ _ ref (some _) => ref.target == h
  | _ => false

def Operation.looksUp : Operation α → Bool
  | find .. | findOne .. | registered .. | hooks | inUse .. => true
  | _ => false

def Operation.listsActive : Operation α → Bool
  | find .. | findOne .. | registered .. | hooks => true
  | _ => false

def Reply.mentions : Reply α → List Reference
  | .references refs => refs
  | .reference ref => ref.toList
  | _ => []

theorem Occurrence.matters_of_binds {h : Handle} {o : Occurrence α} (ho : o.binds h = true) : o.matters = true := by
  unfold Occurrence.binds at ho
  split at ho <;> first | rfl | cases ho

namespace World

variable {w w' v : World α} {g : Registry α} {top : Option (Frame α)} {out : Outcome α} {h t : Handle} {r : Nat}
  {b : BundleId} {ref : Reference} {op : Operation α} {os : List (Occurrence α)} {reply : Reply α} {ms : List (Move α)}

/-! ## What an invalid registration is left out of -/

theorem target_ne_of_isValid (hinvalid : w.phase? h = some .invalid) (hvalid : w.isValid t = true) : t ≠ h := by
  rintro rfl
  rcases isValid_iff.mp hvalid with hp | hp <;> cases hp.symm.trans hinvalid

theorem ne_of_isActive (hinactive : w.isActive h = false) (hactive : w.isActive t = true) : t ≠ h := by
  rintro rfl
  rw [hinactive] at hactive
  cases hactive

theorem target_ne_of_isActive (hinvalid : w.phase? h = some .invalid) (hactive : w.isActive t = true) : t ≠ h :=
  target_ne_of_isValid hinvalid (isValid_iff.mpr (Or.inl (isActive_iff.mp hactive)))

theorem isValid_of_invalid (hinvalid : w.phase? h = some .invalid) : w.isValid h = false := by
  rw [isValid, hinvalid]

theorem behind?_of_invalid (hinvalid : w.phase? ref.target = some .invalid) : w.behind? ref = none := by
  rw [behind?, isValid_of_invalid hinvalid]
  rfl

/-- Whoever has an entry has it for something valid. -/
theorem entry_ne (hst : Standing w g) (hinvalid : w.phase? h = some .invalid) {u : Usage α}
    (hu : u ∈ g.ledger.usages b) : u.reference.target ≠ h :=
  target_ne_of_isValid hinvalid (hst.valid b u hu)

theorem usage?_of_invalid (hst : Standing w g) (hinvalid : w.phase? ref.target = some .invalid)
    (hknown : g.knows ref = true) (b : BundleId) : g.ledger.usage? b ref.id = none := by
  cases hu : g.ledger.usage? b ref.id with
  | none => rfl
  | some u =>
    have htarget := entry_ne hst hinvalid (Ledger.mem_of_usage? hu).1
    rw [hst.sound.reference_eq hknown hu] at htarget
    exact absurd rfl htarget

theorem bundles_of_invalid (hst : Standing w g) (hinvalid : w.phase? ref.target = some .invalid)
    (hknown : g.knows ref = true) : g.ledger.bundles ref.id = [] := by
  refine List.eq_nil_iff_forall_not_mem.mpr fun b hb => ?_
  obtain ⟨u, hu, hid⟩ := Ledger.exists_of_mem_bundles hst.sound.ledger hb
  have htarget := entry_ne hst hinvalid hu
  rw [Registry.knows_unique (hst.sound.known b u hu) hknown hid] at htarget
  exact htarget rfl

theorem isIndexed_of_invalid (hst : Standing w g) {x : Registration α} (hx : w.registration? h = some x)
    (hinvalid : w.phase? h = some .invalid) : g.isIndexed x.bundle h = false := by
  refine Bool.eq_false_iff.mpr fun hindexed => ?_
  have hactive := (hst.listed h x hx).mp hindexed
  rw [phase?_of_some hx, hactive] at hinvalid
  cases hinvalid

/-! ## What no step does to it -/

theorem next_step (hst : Standing (v.onto top) g) (hs : Step v top out) (h : Handle) :
    Phase.Next (v.phase? h) (out.1.phase? h) := by
  rcases phase_step hst hs h with hsame | ⟨hp, hp'⟩ | ⟨hp, hp', -⟩ | ⟨hp, hp', -⟩
  · rw [hsame]
    exact .same _
  · rw [hp, hp']
    exact .published
  · rw [hp, hp']
    exact .retired
  · rw [hp, hp']
    exact .drained

theorem unbound_asks {f : Frame α} (hf : f.getting? = none) : ∀ o ∈ f.asks, o.binds h = false := by
  intro o ho
  obtain ⟨q, hq, rfl⟩ := List.mem_map.mp ho
  cases f with
  | resolving => cases hf
  | settling => cases hf
  | releasing r t due e =>
    cases due with
    | nil => cases hq
    | cons d due =>
      obtain rfl := List.mem_singleton.mp hq
      rfl
  | announcing =>
    obtain rfl := List.mem_singleton.mp hq
    rfl
  | reporting =>
    obtain rfl := List.mem_singleton.mp hq
    rfl
  | withdrawing =>
    obtain rfl := List.mem_singleton.mp hq
    rfl
  | filtering =>
    obtain rfl := List.mem_singleton.mp hq
    rfl
  | draining => cases hq
  | ungetting => cases hq
  | unregistering => cases hq

/-- No step binds anybody to what is invalid. -/
theorem unbound_step (hst : Standing (v.onto top) g) (hs : Step v top out) (hinvalid : v.phase? h = some .invalid) :
    ∀ o ∈ out.2, o.binds h = false := by
  have hgist : ∀ os : List (Occurrence α), (∀ o ∈ gist os, o.binds h = false) → ∀ o ∈ os, o.binds h = false := by
    intro os hall o ho
    cases hbinds : o.binds h with
    | false => rfl
    | true => rw [← hbinds, hall o (List.mem_filter.mpr ⟨ho, Occurrence.matters_of_binds hbinds⟩)]
  have hasks : ∀ f : Frame α, f.getting? = none → ∀ o ∈ gist f.asks, o.binds h = false :=
    fun f hf o ho => unbound_asks hf o (List.mem_filter.mp ho).1
  refine hgist out.2 ?_
  cases hs with
  | idle htop hi => simp [hi.quiet]
  | publish _ _ _ _ _ _ _ hos => simp [hos]
  | retire _ _ _ _ _ _ hos => simp [hos, Occurrence.binds]
  | notified hos => simp [hos]
  | drain f hg hf hos =>
    rw [hos]
    refine List.forall_mem_cons.mpr ⟨rfl, hasks f ?_⟩
    rw [hf]
    rfl
  | @acquire q k b ref x os f hg hknown hx hf hos =>
    have hne := target_ne_of_isValid hinvalid (behind?_eq_some.mp hx).1
    rw [hos]
    refine List.forall_mem_cons.mpr ⟨by simpa [Occurrence.binds] using hne, ?_⟩
    rw [hf]
    unfold fetch
    split
    · simp [gist, Frame.asks, Frame.question?]
    · simp [gist, Frame.asks, Frame.question?]
    · simpa [gist, Frame.asks, Frame.question?, Occurrence.matters, Occurrence.binds] using hne
  | supplied o hos => simp [hos, Occurrence.binds]
  | @settle q k t b ref fresh o os e f hg he hf hos =>
    rw [hos]
    refine List.forall_mem_cons.mpr ⟨?_, hasks f (by rw [hf]; rfl)⟩
    cases hobject : e.object with
    | none => rfl
    | some x =>
      -- An object is given for a valid registration only.
      have htarget := (hst.getting _ (List.mem_cons_self ..) t b ref rfl).1
      obtain ⟨rfl, rfl⟩ := sole_get (show v.registries = #[g] from hst.sole) hg
      have hsettles := settles_of_eq hst.sound.ledger he
      have hvalid := hsettles.valid_of_object (by rw [hobject]; rfl)
      rw [htarget] at hvalid
      simpa [Occurrence.binds] using target_ne_of_isValid hinvalid hvalid
  | decrement _ _ _ _ _ hos => simp [hos, Occurrence.binds]
  | flush k _ _ _ _ _ hk hos =>
    rw [hos]
    refine List.forall_mem_cons.mpr ⟨rfl, ?_⟩
    cases k with
    | none => simp [gist]
    | some k =>
      obtain ⟨x, -, rfl⟩ := Option.map_eq_some_iff.mp hk.symm
      rw [Option.toList_some, List.flatMap_singleton]
      exact hasks _ rfl
  | handed hos =>
    rw [hos]
    exact hasks _ rfl

/-! ## What calls say of it -/

/-- Whenever the client may call `op`, it is answered at once, and nothing changes. -/
def Answers (w : World α) (op : Operation α) (os : List (Occurrence α)) (reply : Reply α) : Prop :=
  w.isClientsTurn = true → w.allows op = true →
    w.play (.call 0 op) = some (w, .called 0 op :: (os ++ [.returned reply]))

theorem answers_of_call (hs : w.registries = #[g]) (hreply : ∀ t, reply ≠ .published t)
    (hcall : w.allows op = true → w.call 0 g op = after os (w.finish reply)) : w.Answers op os reply := by
  intro hturn hallows
  have hg : w.registries[0]? = some g := by rw [hs]; rfl
  rw [play_call hturn hallows hg, hcall hallows, finish_eq hturn hreply]
  rfl

theorem answers_get (hst : Standing w g) (hinvalid : w.phase? ref.target = some .invalid) (b : BundleId) :
    w.Answers (.get b ref) [] (.object none) := by
  refine answers_of_call hst.sole (by simp) fun _ => ?_
  rw [call, get_of_invalid w 0 g b (behind?_of_invalid hinvalid)]
  rfl

theorem answers_usage (hst : Standing w g) (hinvalid : w.phase? ref.target = some .invalid) (b : BundleId) :
    w.Answers (.usage b ref) [] (.usage none) := by
  refine answers_of_call hst.sole (by simp) fun hallows => ?_
  have hknown : g.knows ref = true := by
    rw [← knows_sole hst.sole]
    exact hallows
  rw [call, Ledger.count?, usage?_of_invalid hst hinvalid hknown]
  rfl

theorem answers_users (hst : Standing w g) (hinvalid : w.phase? ref.target = some .invalid) :
    w.Answers (.users ref) [] (.bundles []) := by
  refine answers_of_call hst.sole (by simp) fun hallows => ?_
  have hknown : g.knows ref = true := by
    rw [← knows_sole hst.sole]
    exact hallows
  rw [call, bundles_of_invalid hst hinvalid hknown]
  rfl

theorem answers_setProperties (hst : Standing w g) (hinvalid : w.phase? h = some .invalid) (p : Properties) :
    w.Answers (.setProperties h p) [] (.flag false) := by
  refine answers_of_call hst.sole (by simp) fun _ => ?_
  rw [call, setProperties]
  cases hx : w.registration? h with
  | none => rfl
  | some x =>
    dsimp only
    rw [isIndexed_of_invalid hst hx hinvalid]
    rfl

theorem answers_unregister (hst : Standing w g) (hinvalid : w.phase? h = some .invalid) {x : Registration α}
    (hx : w.registration? h = some x) : w.Answers (.unregister x.bundle h) [.declined 0 h] (.flag false) := by
  refine answers_of_call hst.sole (by simp) fun _ => ?_
  have hretire : w.retire? 0 g h = none := by
    rw [retire?, hx]
    dsimp only
    rw [isIndexed_of_invalid hst hx hinvalid]
    rfl
  rw [call, unregister, hx]
  dsimp only
  rw [beq_self_eq_true, if_pos rfl, withdraw, hretire]

/-! ## Lookups -/

theorem target_of_mint {q : Reference} (hq : (w.mint r t).1 = some q) : q.target = t := by
  unfold mint at hq
  split at hq
  · cases hq
  · obtain rfl := Option.some.inj hq
    rfl

theorem target_of_mem_mintAll {hs : List Handle} {q : Reference} (hq : q ∈ (w.mintAll r hs).1) : q.target ∈ hs := by
  induction hs generalizing w with
  | nil => cases hq
  | cons t hs ih =>
    have hq' : q ∈ (w.mint r t).1.toList ++ ((w.mint r t).2.1.mintAll r hs).1 := hq
    rcases List.mem_append.mp hq' with hq' | hq'
    · rw [target_of_mint (Option.mem_toList.mp hq')]
      exact List.mem_cons_self ..
    · exact List.mem_cons_of_mem _ (ih hq')

theorem mem_of_leastId {hs : List Handle} (ht : w.leastId hs = some t) : t ∈ hs := by
  induction hs generalizing t with
  | nil => cases ht
  | cons k hs ih =>
    rw [leastId] at ht
    split at ht
    · rename_i m hm
      split at ht
      · obtain rfl := Option.some.inj ht
        exact List.mem_cons_of_mem _ (ih hm)
      · obtain rfl := Option.some.inj ht
        exact List.mem_cons_self ..
    · obtain rfl := Option.some.inj ht
      exact List.mem_cons_self ..

inductive Passes (h : Handle) : Frame α → Prop
  | filtering {r : Nat} {t : Handle} {p : Properties} {rest : List (Handle × Properties)} {found : List Reference}
      (hhead : t ≠ h) (hrest : ∀ c ∈ rest, c.1 ≠ h) (hfound : ∀ q ∈ found, q.target ≠ h) :
      Passes h (.filtering r t p rest found)

def Spares (h : Handle) (w : World α) (out : Outcome α) : Prop :=
  (out.1.stack = w.stack ∧ ∃ os reply, out.2 = os ++ [.returned reply] ∧ ∀ q ∈ reply.mentions, q.target ≠ h) ∨
    ∃ f, out.1.stack = f :: w.stack ∧ Passes h f

theorem Spares.after (hsp : Spares h w out) (os : List (Occurrence α)) : Spares h w (after os out) := by
  rcases hsp with ⟨hstack, os', reply, hos, hmentions⟩ | hmore
  · exact Or.inl ⟨hstack, os ++ os', reply, by rw [World.after, hos, List.append_assoc], hmentions⟩
  · exact Or.inr hmore

theorem Spares.of_stack (hs : w'.stack = w.stack) (hsp : Spares h w' out) : Spares h w out := by
  unfold Spares at hsp ⊢
  rwa [← hs]

theorem spares_finish (hturn : w.isClientsTurn = true) (hmentions : ∀ q ∈ reply.mentions, q.target ≠ h)
    (hreply : ∀ t, reply ≠ .published t) : Spares h w (w.finish reply) := by
  rw [finish_eq hturn hreply]
  exact Or.inl ⟨rfl, [], reply, rfl, hmentions⟩

theorem spares_returnAll (hturn : w.isClientsTurn = true) (r : Nat) {hs : List Handle} (hne : ∀ t ∈ hs, t ≠ h) :
    Spares h w (w.returnAll r hs) := by
  have hstack := (mintAll_idle r hs w).2.1
  refine .of_stack hstack (.after (spares_finish ?_ ?_ (by simp)) _)
  · rw [isClientsTurn_eq hstack]
    exact hturn
  · exact fun q hq => hne _ (target_of_mem_mintAll hq)

theorem spares_filterNext (hturn : w.isClientsTurn = true) (r : Nat) {found : List Reference}
    {cs : List (Handle × Properties)} (hfound : ∀ q ∈ found, q.target ≠ h) (hcs : ∀ c ∈ cs, c.1 ≠ h) :
    Spares h w (w.filterNext r found cs) := by
  unfold filterNext
  split
  · exact spares_finish hturn hfound (by simp)
  · exact Or.inr ⟨_, rfl, .filtering (hcs _ (List.mem_cons_self ..)) (fun c hc => hcs c (List.mem_cons_of_mem _ hc)) hfound⟩

theorem candidate_ne (hinactive : w.isActive h = false) {name : Option String} {c : Handle × Properties}
    (hc : c ∈ w.candidates g name) : c.1 ≠ h := by
  obtain ⟨t, ht, hx⟩ := List.mem_filterMap.mp hc
  obtain ⟨x, -, rfl⟩ := Option.map_eq_some_iff.mp hx
  exact ne_of_isActive hinactive (List.mem_filter.mp (List.mem_filter.mp ht).1).2

/-- A lookup that starts now does not come upon what is neither active nor listed. -/
theorem spares_lookup (hinactive : w.isActive h = false) (howned : ∀ b, h ∉ (g.owned b).filter w.isValid)
    (hhooks : h ∉ g.hooks)
    (hturn : w.isClientsTurn = true) (hop : op.listsActive = true) : Spares h w (w.call r g op) := by
  cases op with
  | find name filtered =>
    rw [call, find]
    split
    · exact spares_filterNext hturn r (by simp) fun c hc => candidate_ne hinactive hc
    · refine spares_returnAll hturn r fun t ht => ?_
      obtain ⟨c, hc, rfl⟩ := List.mem_map.mp ht
      exact candidate_ne hinactive hc
  | findOne name =>
    rw [call, findOne]
    split
    · exact spares_finish hturn (by simp [Reply.mentions]) (by simp)
    · rename_i t ht
      have hactive := (List.mem_filter.mp (List.mem_filter.mp (mem_of_leastId ht)).1).2
      refine .of_stack (stack_mint w r t) (.after (spares_finish ?_ ?_ (by simp)) _)
      · rw [isClientsTurn_eq (stack_mint w r t)]
        exact hturn
      · intro q hq
        rw [target_of_mint (Option.mem_toList.mp hq)]
        exact ne_of_isActive hinactive hactive
  | registered b =>
    refine spares_returnAll hturn r fun t ht => ?_
    rintro rfl
    exact howned b ht
  | hooks =>
    refine spares_returnAll hturn r fun t ht => ?_
    rintro rfl
    exact hhooks ht
  | _ => cases hop

theorem spares_call (hst : Standing w g) (hinvalid : w.phase? h = some .invalid) (hturn : w.isClientsTurn = true)
    (hop : op.looksUp = true) : Spares h w (w.call r g op) := by
  have hinactive : w.isActive h = false := by
    rw [isActive, hinvalid]
    rfl
  have howned : ∀ b, h ∉ (g.owned b).filter w.isValid :=
    fun b hb => target_ne_of_isValid hinvalid (List.mem_filter.mp hb).2 rfl
  have hhooks : h ∉ g.hooks := fun hmem => target_ne_of_isActive hinvalid (hst.hooked h hmem) rfl
  cases op with
  | inUse b =>
    refine spares_finish hturn (fun q hq => ?_) (by simp)
    obtain ⟨u, hu, rfl⟩ := List.mem_map.mp hq
    exact entry_ne hst hinvalid hu
  | find => exact spares_lookup hinactive howned hhooks hturn rfl
  | findOne => exact spares_lookup hinactive howned hhooks hturn rfl
  | registered => exact spares_lookup hinactive howned hhooks hturn rfl
  | hooks => exact spares_lookup hinactive howned hhooks hturn rfl
  | _ => cases hop

theorem spares_goesOn {f : Frame α} (hgo : GoesOn v f out) (hv : v.stack = w.stack) (hturn : w.isClientsTurn = true)
    (hf : Passes h f) : Spares h w out := by
  refine .of_stack hv ?_
  rw [← isClientsTurn_eq hv] at hturn
  obtain ⟨hhead, hrest, hfound⟩ := hf
  rename_i r t p rest found
  rcases hgo with ⟨q, a, o, -, ho, rfl⟩ | hout
  · cases a with
    | verdict picked =>
      cases picked with
      | false =>
        obtain rfl := Option.some.inj ho
        exact .after (spares_filterNext hturn r hfound hrest) _
      | true =>
        obtain rfl := Option.some.inj ho
        refine .after (.of_stack (stack_mint v r t) (.after (spares_filterNext ?_ r ?_ hrest) _)) _
        · rw [isClientsTurn_eq (stack_mint v r t)]
          exact hturn
        · intro q hq
          rcases List.mem_append.mp hq with hq | hq
          · exact hfound q hq
          · rw [target_of_mint (Option.mem_toList.mp hq)]
            exact hhead
    | done => cases ho
    | supplied => cases ho
  · cases hout

/-- What a lookup that does not come upon `h` when it starts returns does not mention it, whatever
    happens meanwhile. -/
theorem mentions_of_spares (hcalled : ∀ o, w.play (.call r op) = some o → Spares h w o)
    (hret : Returns w r op ms out reply) :
    ∀ q ∈ reply.mentions, q.target ≠ h := by
  have hturn := hret.isClientsTurn
  have hreply := hret.reply
  have hover : ∀ o : Outcome α, Spares h w o → o.1.stack.length = w.stack.length → ∀ os,
      (os ++ o.2).getLast? = some (.returned reply) → ∀ q ∈ reply.mentions, q.target ≠ h := by
    intro o hsp hback os hlast
    rcases hsp with ⟨-, os', reply', hos, hmentions⟩ | ⟨f, hf, -⟩
    · rw [hos, ← List.append_assoc, List.getLast?_append] at hlast
      obtain rfl : reply' = reply := by simpa using hlast
      exact hmentions
    · rw [hf, List.length_cons] at hback
      omega
  -- The call is over, or it is in flight as a filtered lookup that passes over `h`.
  have hmoves := hret.frame_induction (Q := fun _ f _ => Passes h f) ?hcall ?habove ?hgoes
  case hcall =>
    intro o hplay hmore
    rcases hcalled o hplay with ⟨hstack, -⟩ | hpasses
    · rw [hstack] at hmore
      omega
    · exact hpasses
  case habove => exact fun o m last p p' f _ hpasses _ _ => hpasses
  case hgoes =>
    intro o m last f _ hpasses _ hgo hmore
    have hspares : Spares h w last := spares_goesOn hgo rfl hturn hpasses
    rcases hspares with ⟨hstack, -⟩ | hpasses'
    · rw [hstack] at hmore
      omega
    · exact hpasses'
  rcases hmoves with hplay | ⟨mid, f, last, -, hpasses, hgo, rfl⟩
  · exact hover out (hcalled out hplay) hret.back [] hreply
  · exact hover last (spares_goesOn hgo rfl hturn hpasses) hret.back mid.2 hreply

/-- Where there is one registry, it is the one called. -/
theorem called_of_play (hs : w.registries = #[g]) {o : Outcome α} (hplay : w.play (.call r op) = some o) :
    o = after [.called r op] (w.call r g op) := by
  obtain ⟨-, -, k, hk, rfl⟩ := calls_of_play hplay
  obtain ⟨-, rfl⟩ := sole_get hs hk
  rfl

theorem mentions_of_returns (hst : Standing w g) (hinvalid : w.phase? h = some .invalid) (hop : op.looksUp = true)
    (hret : Returns w r op ms out reply) : ∀ q ∈ reply.mentions, q.target ≠ h := by
  refine mentions_of_spares (fun o hplay => ?_) hret
  rw [called_of_play hst.sole hplay]
  exact .after (spares_call hst hinvalid hret.isClientsTurn hop) _

/-! ## Every run -/

/-- `h` is invalid, and nothing in the world yields it. -/
structure Gone (w : World α) (h : Handle) : Prop where
  phase : w.phase? h = some .invalid
  behind : ∀ ref, ref.target = h → w.isValid ref.target = false ∧ w.behind? ref = none
  entries : ∀ g ∈ w.registries, ∀ b, ∀ u ∈ g.ledger.usages b, u.reference.target ≠ h
  usage : ∀ b ref, ref.target = h → w.Answers (.usage b ref) [] (.usage none)
  users : ∀ ref, ref.target = h → w.Answers (.users ref) [] (.bundles [])
  get : ∀ b ref, ref.target = h → w.Answers (.get b ref) [] (.object none)
  lookup : ∀ r op ms out reply, op.looksUp = true → Returns w r op ms out reply → ∀ q ∈ reply.mentions, q.target ≠ h
  setProperties : ∀ p, w.Answers (.setProperties h p) [] (.flag false)
  unregister : ∀ x, w.registration? h = some x → w.Answers (.unregister x.bundle h) [.declined 0 h] (.flag false)

theorem gone_of_invalid (hst : Standing w g) (hinvalid : w.phase? h = some .invalid) : Gone w h where
  phase := hinvalid
  behind := by
    rintro ref rfl
    exact ⟨isValid_of_invalid hinvalid, behind?_of_invalid hinvalid⟩
  entries := by
    intro k hk b u hu
    rw [hst.sole] at hk
    obtain rfl : k = g := by simpa using hk
    exact entry_ne hst hinvalid hu
  usage := by
    rintro b ref rfl
    exact answers_usage hst hinvalid b
  users := by
    rintro ref rfl
    exact answers_users hst hinvalid
  get := by
    rintro b ref rfl
    exact answers_get hst hinvalid b
  lookup _ _ _ _ _ hop hret := mentions_of_returns hst hinvalid hop hret
  setProperties := answers_setProperties hst hinvalid
  unregister _ hx := answers_unregister hst hinvalid hx

/-- What is invalid stays so in every run, and nobody is bound to it. -/
theorem invalid_run (hst : Standing w g) (hinvalid : w.phase? h = some .invalid) (hrun : w.run ms = some out) :
    (∃ g', Standing out.1 g') ∧ out.1.phase? h = some .invalid ∧ ∀ o ∈ out.2, o.binds h = false := by
  refine run_induction (P := fun w os => (∃ g, Standing w g) ∧ w.phase? h = some .invalid ∧
    ∀ o ∈ os, o.binds h = false) ?_ ms w [] out ⟨⟨g, hst⟩, hinvalid, by simp⟩ hrun
  rintro w os m out ⟨⟨g, hst⟩, hinvalid, hos⟩ hplay
  obtain ⟨v, top, rfl, -, hs⟩ := play_step hplay
  refine ⟨standing_play hst hplay, invalid_step hs hinvalid, fun o ho => ?_⟩
  rcases List.mem_append.mp ho with ho | ho
  · exact hos o ho
  · exact unbound_step hst hs hinvalid o ho

/-- In every reachable world, a move takes a registration at most one phase further, and one that
    is invalid is gone then and in every later world, with nobody bound to it since. -/
theorem withdrawal_is_final {c : Config} {hasSink : Bool} {before : List (Move α)}
    (hbefore : (start [(c, hasSink)]).run before = some (w, os)) (h : Handle) :
    (∀ m out, w.play m = some out → Phase.Next (w.phase? h) (out.1.phase? h)) ∧
    (w.phase? h = some .invalid → ∀ ms out, w.run ms = some out → Gone out.1 h ∧ ∀ o ∈ out.2, o.binds h = false) := by
  obtain ⟨g, hst⟩ := standing_run hbefore
  constructor
  · intro m out hplay
    obtain ⟨v, top, rfl, -, hs⟩ := play_step hplay
    exact next_step hst hs h
  · intro hinvalid ms out hrun
    obtain ⟨⟨g', hst'⟩, hinvalid', hos⟩ := invalid_run hst hinvalid hrun
    exact ⟨gone_of_invalid hst' hinvalid', hos⟩

def withdrawnInFlight : List (Move Nat) :=
  [.call 0 (.register 7 "a" .factory none), .call 0 (.findOne "a"), .call 0 (.get 9 ⟨1, 1, 0⟩),
   .call 0 (.unregister 7 0), .tick, .tick]

theorem withdrawal_is_final_withdrawnInFlight : ∃ w os,
    (start [(Config.standard, false)]).run withdrawnInFlight = some (w, os) ∧ w.phase? 0 = some .invalid ∧
    (∀ m out, w.play m = some out → Phase.Next (w.phase? 0) (out.1.phase? 0)) ∧
    ∀ ms out, w.run ms = some out → Gone out.1 0 ∧ ∀ o ∈ out.2, o.binds 0 = false := by
  have hany : ((start [(Config.standard, false)]).run withdrawnInFlight).any
      (fun out => out.1.phase? 0 == some .invalid) = true := by decide +kernel
  obtain ⟨⟨w, os⟩, hbefore, hphase⟩ := (Option.any_eq_true _ _).mp hany
  have hinvalid := beq_iff_eq.mp hphase
  obtain ⟨hnext, hgone⟩ := withdrawal_is_final hbefore 0
  exact ⟨w, os, hbefore, hinvalid, hnext, hgone hinvalid⟩

end World

end Switchboard
