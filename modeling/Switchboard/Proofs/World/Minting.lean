/-
  Switchboard.Proofs.World.Minting — what the references that are handed out refer to.

  Only lookups hand out references: at once, or candidate by candidate while a filter is asked.
  Whatever a lookup comes upon was published at its registry, and this holds of the candidates
  that a filter is still to be asked of (`Sought`), for registrations stay. So every reference
  that a registry handed out is to one of its own registrations and has its id, then and in
  every later world (`serviced_run`).

  What a lookup returns was handed out meanwhile, in the order it is returned
  (`minted_of_returns`).
-/

import Switchboard.Proofs.World.Lookup

namespace Switchboard

namespace World

variable {α : Type} {w v : World α} {g : Registry α} {out : Outcome α} {os : List (Occurrence α)} {r : Nat}
  {h : Handle} {hs : List Handle} {f : Frame α} {op : Operation α} {m : Move α} {ms : List (Move α)} {reply : Reply α}

def Serviced (w : World α) (os : List (Occurrence α)) : Prop :=
  ∀ r, ∀ q ∈ mintedAt os r, w.Homed r q.target ∧ q.service = w.serviceId q.target

/-- What a filter is and will be asked of was published at the registry of the lookup. -/
def Sought (w : World α) : Frame α → Prop
  | .filtering r h _ rest _ => ∀ t ∈ h :: rest.map (·.1), w.Homed r t
  | _ => True

def Covers (w v : World α) : Prop := ∀ f ∈ v.stack, f ∈ w.stack ∨ w.Sought f

structure Seeks (w : World α) (out : Outcome α) : Prop where
  serviced : w.Serviced out.2
  covers : w.Covers out.1

/-! ## Moves that hand out nothing -/

theorem serviced_of_none (hos : ∀ r, mintedAt os r = []) : w.Serviced os := by
  intro r q hq
  rw [hos] at hq
  cases hq

theorem Serviced.append {os' : List (Occurrence α)} (hos : w.Serviced os) (hos' : w.Serviced os') :
    w.Serviced (os ++ os') := by
  intro r q hq
  rw [mintedAt_append] at hq
  rcases List.mem_append.mp hq with hq | hq
  · exact hos r q hq
  · exact hos' r q hq

theorem Covers.refl (w : World α) : w.Covers w := fun _ hf => Or.inl hf

theorem Covers.of_eq {v' : World α} (hv : w.Covers v) (hs : v'.stack = v.stack) : w.Covers v' := by
  intro f hf
  rw [hs] at hf
  exact hv f hf

theorem covers_of_stack (hs : v.stack = w.stack) : w.Covers v := (Covers.refl w).of_eq hs

theorem Covers.place (hv : w.Covers v) (hf : w.Sought f) : w.Covers (v.place f).1 := by
  intro k hk
  rcases List.mem_cons.mp hk with rfl | hk
  · exact Or.inr hf
  · exact hv k hk

theorem Seeks.after (h : Seeks w out) (hos : w.Serviced os) : Seeks w (after os out) :=
  ⟨hos.append h.serviced, h.covers⟩

/-- What is said on the way but for these hands out nothing. -/
theorem Seeks.quietly (h : Seeks w out) (hos : ∀ r, mintedAt os r = []) : Seeks w (World.after os out) :=
  h.after (serviced_of_none hos)

theorem seeks_place (hv : w.Covers v) (hf : w.Sought f) : Seeks w (v.place f) :=
  ⟨serviced_of_none (mintedAt_asks f), hv.place hf⟩

theorem seeks_finish (hv : w.Covers v) (reply : Reply α) : Seeks w (v.finish reply) := by
  refine ⟨serviced_of_none fun r => ?_, hv.of_eq (stack_finish v reply)⟩
  unfold finish
  split <;> rfl

theorem seeks_release (hv : w.Covers v) (r : Nat) (h : Handle) (due : List (BundleId × α)) (e : Ending α) :
    Seeks w (v.release r h due e) :=
  seeks_place hv trivial

theorem seeks_register (w : World α) (r : Nat) (g : Registry α) (b : BundleId) (name : String) (source : Source α)
    (p : Option Properties) : Seeks w (w.register r g b name source p) := by
  unfold register
  split
  · exact seeks_finish (.refl w) _
  · dsimp only
    have hsame : ∀ x, w.Covers ({ w with registrations := x }.setRegistry r (g.enlist b name w.registrations.size)) :=
      fun _ => covers_of_stack rfl
    split
    · refine (seeks_place (hsame _) ?_).quietly fun q => ?_
      · trivial
      · rfl
    · refine (seeks_finish (hsame _) _).quietly fun q => ?_
      rfl

theorem seeks_report (hv : w.Covers v) (r : Nat) (g : Registry α) (h : Handle) (old : Properties) (reply : Reply α) :
    Seeks w (v.report r g h old reply) := by
  unfold report
  split
  · exact seeks_place hv trivial
  · exact seeks_finish hv reply

theorem seeks_setProperties (w : World α) (r : Nat) (g : Registry α) (h : Handle) (p : Properties) :
    Seeks w (w.setProperties r g h p) := by
  unfold setProperties
  split
  · exact seeks_finish (.refl w) _
  · split
    · refine (seeks_report (covers_of_stack ?_) ..).quietly fun q => ?_
      · rfl
      · rfl
    · exact seeks_finish (.refl w) _

theorem seeks_withdrawal (hv : w.Covers v) (r : Nat) (g : Registry α) (h : Handle) : Seeks w (v.withdrawal r g h) := by
  refine (seeks_place hv ?_).quietly fun _ => rfl
  split <;> trivial

theorem stack_retired {w' : World α} (hw : w.retire? r g h = some w') : w'.stack = w.stack := by
  obtain ⟨x, -, -, -, rfl⟩ := retire?_eq_some hw
  rfl

theorem seeks_unregister (w : World α) (r : Nat) (g : Registry α) (b : BundleId) (h : Handle) :
    Seeks w (w.unregister r g b h) := by
  unfold unregister withdraw
  split
  · exact seeks_finish (.refl w) _
  · split
    · split
      · rename_i w' hw
        exact seeks_withdrawal (covers_of_stack (stack_retired hw)) r g h
      · refine (seeks_finish (.refl w) _).quietly fun q => ?_
        rfl
    · exact seeks_finish (.refl w) _

theorem seeks_unregisterNext (w : World α) (r : Nat) (g : Registry α) (snapshot rest : List Handle) (n : Nat) :
    Seeks w (w.unregisterNext r g snapshot n rest) := by
  unfold unregisterNext
  split
  · exact seeks_finish (.refl w) _
  · rename_i h rest
    split
    · rename_i w' hw
      have hplaced : w.Covers (w'.place (.unregistering r snapshot rest (n + 1))).1 :=
        (covers_of_stack (stack_retired hw)).place trivial
      exact (seeks_withdrawal hplaced r g h).quietly (mintedAt_asks _)
    · refine (seeks_place (.refl w) ?_).quietly fun q => ?_
      · trivial
      · rfl

theorem seeks_drain (w : World α) (r : Nat) (g : Registry α) (h : Handle) : Seeks w (w.drain r g h) := by
  unfold drain
  refine (seeks_release (covers_of_stack ?_) ..).quietly fun q => ?_
  · rfl
  · rfl

theorem seeks_get (w : World α) (r : Nat) (g : Registry α) (b : BundleId) (ref : Reference) :
    Seeks w (w.get r g b ref) := by
  cases hx : w.behind? ref with
  | none =>
    rw [get_of_invalid w r g b hx]
    exact seeks_finish (.refl w) _
  | some x =>
    rw [get_of_valid w r g b hx]
    refine (seeks_place (covers_of_stack ?_) ?_).quietly fun q => ?_
    · rfl
    · unfold fetch
      split <;> trivial
    · rfl

theorem seeks_settle (w : World α) (r : Nat) (g : Registry α) (h : Handle) (b : BundleId) (ref : Reference)
    (fresh : Bool) (o : Option α) : Seeks w (w.settle r g h b ref fresh o) := by
  unfold settle
  refine (seeks_release (covers_of_stack ?_) ..).quietly fun q => ?_
  · rfl
  · cases o <;> rfl

theorem ungetOne_quiet (w : World α) (r : Nat) (g : Registry α) (b : BundleId) (ref : Reference) :
    (w.ungetOne r g b ref).2.2.1.stack = w.stack ∧ ∀ q, mintedAt (w.ungetOne r g b ref).2.2.2 q = [] := by
  rcases ungetOne_cases w r g b ref with hone | ⟨left, l, -, hone⟩ | ⟨cached, l, -, hone⟩
  · rw [hone]
    exact ⟨rfl, fun _ => rfl⟩
  · rw [hone]
    exact ⟨rfl, fun _ => rfl⟩
  · rw [hone]
    exact ⟨rfl, fun _ => rfl⟩

theorem seeks_unget (w : World α) (r : Nat) (g : Registry α) (b : BundleId) (ref : Reference) :
    Seeks w (w.unget r g b ref) := by
  obtain ⟨hstack, hquiet⟩ := ungetOne_quiet w r g b ref
  unfold unget
  split
  · rename_i heq
    rw [heq] at hstack hquiet
    exact (seeks_release (covers_of_stack hstack) ..).quietly hquiet
  · rename_i heq
    rw [heq] at hstack hquiet
    exact (seeks_finish (covers_of_stack hstack) _).quietly hquiet

theorem seeks_ungetNext (w : World α) (r : Nat) (g : Registry α) (b : BundleId) (rest : List Reference) :
    Seeks w (w.ungetNext r g b rest) := by
  unfold ungetNext
  split
  · exact seeks_finish (.refl w) _
  · rename_i ref rest
    obtain ⟨hstack, hquiet⟩ := ungetOne_quiet w r g b ref
    split
    · rename_i heq
      rw [heq] at hstack hquiet
      refine (seeks_release ((covers_of_stack hstack).place ?_) ..).quietly fun q => ?_
      · trivial
      · rw [mintedAt_append, hquiet, List.nil_append]
        exact mintedAt_asks _ q
    · rename_i heq
      rw [heq] at hstack hquiet
      refine (seeks_place (covers_of_stack hstack) ?_).quietly hquiet
      trivial

theorem seeks_conclude (w : World α) (r : Nat) (h : Handle) (e : Ending α) : Seeks w (w.conclude r h e) := by
  unfold conclude
  cases e with
  | withdrawn => exact (seeks_finish (.refl w) _).quietly fun _ => rfl
  | got b ref o => exact (seeks_finish (.refl w) _).quietly fun _ => rfl
  | ungot => exact seeks_finish (.refl w) _

/-! ## Lookups -/

theorem serviced_mint (hid : v.serviceId h = w.serviceId h) (hh : w.Homed r h) : w.Serviced (v.mint r h).2.2 := by
  cases hg : v.registries[r]? with
  | none =>
    rw [mint, hg]
    exact serviced_of_none fun _ => rfl
  | some g =>
    rw [mint_of_get hg]
    intro s q hq
    simp only [mintedAt, List.filterMap_cons, List.filterMap_nil, Occurrence.mintedAt?] at hq
    by_cases hs : r = s
    · rw [if_pos hs, List.mem_singleton] at hq
      rw [hq, ← hs]
      exact ⟨hh, hid⟩
    · rw [if_neg hs] at hq
      cases hq

theorem serviced_mintAll (hid : ∀ t, v.serviceId t = w.serviceId t) (hhs : ∀ t ∈ hs, w.Homed r t) :
    w.Serviced (v.mintAll r hs).2.2 := by
  induction hs generalizing v with
  | nil => exact serviced_of_none fun _ => rfl
  | cons h hs ih =>
    have hhead := serviced_mint (hid h) (hhs h (List.mem_cons_self ..))
    have htail := ih (v := (v.mint r h).2.1) (fun t => (serviceId_mint v r h t).trans (hid t))
      fun t ht => hhs t (List.mem_cons_of_mem _ ht)
    exact hhead.append htail

theorem seeks_returnAll (w : World α) (r : Nat) (hhs : ∀ t ∈ hs, w.Homed r t) : Seeks w (w.returnAll r hs) :=
  (seeks_finish (covers_of_stack (mintAll_idle r hs w).2.1) _).after (serviced_mintAll (fun _ => rfl) hhs)

theorem seeks_filterNext (hv : w.Covers v) (found : List Reference) {cs : List (Handle × Properties)}
    (hcs : ∀ t ∈ cs.map (·.1), w.Homed r t) : Seeks w (v.filterNext r found cs) := by
  unfold filterNext
  split
  · exact seeks_finish hv _
  · exact seeks_place hv hcs

theorem homed_candidates (hc : w.Catalogued) (hg : w.registries[r]? = some g) (name : Option String) :
    ∀ t ∈ (w.candidates g name).map (·.1), w.Homed r t :=
  fun _ ht => (snapshot_candidates hc (hc.indexes r g hg) name).homed ht

theorem seeks_find (hc : w.Catalogued) (hg : w.registries[r]? = some g) (name : Option String) (filtered : Bool) :
    Seeks w (w.find r g name filtered) := by
  unfold find
  split
  · exact seeks_filterNext (.refl w) [] (homed_candidates hc hg name)
  · exact seeks_returnAll w r (homed_candidates hc hg name)

theorem seeks_findOne (hc : w.Catalogued) (hg : w.registries[r]? = some g) (name : String) :
    Seeks w (w.findOne r g name) := by
  unfold findOne
  split
  · exact seeks_finish (.refl w) _
  · rename_i t ht
    have hmem : t ∈ (w.candidates g (some name)).map (·.1) := by
      rw [handles_candidates]
      exact mem_of_leastId ht
    exact (seeks_finish (covers_of_stack (stack_mint w r t)) _).after
      (serviced_mint rfl (homed_candidates hc hg _ t hmem))

/-! ## Every move -/

theorem seeks_call (hc : w.Catalogued) (hg : w.registries[r]? = some g) (op : Operation α) :
    Seeks w (w.call r g op) := by
  have hi := hc.indexes r g hg
  unfold call
  cases op with
  | register b name source p => exact seeks_register ..
  | unregister b h => exact seeks_unregister ..
  | unregisterAll b => exact seeks_place (.refl w) trivial
  | find name filtered => exact seeks_find hc hg name filtered
  | findOne name => exact seeks_findOne hc hg name
  | registered b =>
    refine seeks_returnAll w r fun t ht => ?_
    obtain ⟨x, hx, hhome, -⟩ := (mem_owned hi).mp (List.mem_filter.mp ht).1
    exact ⟨x, hx, hhome⟩
  | hooks =>
    refine seeks_returnAll w r fun t ht => ?_
    obtain ⟨x, hx, hhome, -⟩ := (mem_hooks hi).mp ht
    exact ⟨x, hx, hhome⟩
  | get b ref => exact seeks_get ..
  | unget b ref => exact seeks_unget ..
  | ungetAll b => exact seeks_place (.refl w) trivial
  | setProperties h p => exact seeks_setProperties ..
  | modified h old => exact seeks_report (.refl w) ..
  | _ => exact seeks_finish (.refl w) _

theorem seeks_resume? {a : Answer α} (hf : v.Sought f) (ho : v.resume? f a = some out) : Seeks v out := by
  cases resumes_of ho with
  | announced => exact seeks_finish (.refl v) _
  | reported => exact seeks_finish (.refl v) _
  | told => exact seeks_place (.refl v) trivial
  | rejected => exact seeks_filterNext (.refl v) _ fun t ht => hf t (List.mem_cons_of_mem _ ht)
  | accepted r h p rest found =>
    have hnext := seeks_filterNext (w := v) (v := (v.mint r h).2.1) (r := r) (covers_of_stack (stack_mint v r h))
      (found ++ (v.mint r h).1.toList) fun t ht => hf t (List.mem_cons_of_mem _ ht)
    exact hnext.after (serviced_mint rfl (hf h (List.mem_cons_self ..)))
  | supplied => exact seeks_place (.refl v) trivial
  | handed => exact seeks_place (.refl v) trivial

theorem seeks_advance? (hout : v.advance? f = some out) : Seeks v out := by
  cases advances_of hout with
  | drains => exact seeks_drain ..
  | settles => exact seeks_settle ..
  | concludes => exact seeks_conclude ..
  | ungets => exact seeks_ungetNext ..
  | unregisters => exact seeks_unregisterNext ..

theorem seeks_goesOn (hf : v.Sought f) (hgo : GoesOn v f out) : Seeks v out := by
  rcases hgo with ⟨q, a, o, -, ho, rfl⟩ | hout
  · exact (seeks_resume? hf ho).quietly fun _ => rfl
  · exact seeks_advance? hout

theorem seeks_play (hc : w.Catalogued) (hsought : ∀ f ∈ w.stack, w.Sought f) (hplay : w.play m = some out) :
    Seeks w out := by
  cases moves_of_play hplay with
  | holds _ held hout =>
    subst hout
    exact ⟨serviced_of_none fun _ => rfl, .refl w⟩
  | calls _ _ hg hout =>
    subst hout
    exact (seeks_call hc hg _).quietly fun _ => rfl
  | @goesOn f fs hstack hgo =>
    -- What is left of the stack is part of it, and the registrations are the same.
    have hgoes : Seeks { w with stack := fs } out :=
      seeks_goesOn (hsought f (by rw [hstack]; exact List.mem_cons_self ..)) hgo
    refine ⟨hgoes.serviced, fun k hk => (hgoes.covers k hk).imp_left fun hk => ?_⟩
    rw [hstack]
    exact List.mem_cons_of_mem _ hk

/-! ## Every run -/

theorem Serviced.play (hos : w.Serviced os) (hplay : w.play m = some out) : out.1.Serviced os := by
  intro r q hq
  obtain ⟨hhomed, hservice⟩ := hos r q hq
  obtain ⟨hhomed', hid⟩ := hhomed.play hplay
  exact ⟨hhomed', hservice.trans hid.symm⟩

theorem Sought.play (hf : w.Sought f) (hplay : w.play m = some out) : out.1.Sought f := by
  cases f with
  | filtering => exact fun t ht => ((hf t ht).play hplay).1
  | _ => trivial

/-- In every run, a reference is to what its registry published, and has its id. -/
theorem serviced_run {setups : List (Config × Bool)} (hrun : (start setups).run ms = some out) :
    out.1.Serviced out.2 := by
  have hall := run_induction (P := fun w os => Tallied setups w os ∧ w.Serviced os ∧ ∀ f ∈ w.stack, w.Sought f) ?_ ms _ []
    out ⟨tallied_start setups, serviced_of_none fun _ => rfl, fun f hf => by cases hf⟩ hrun
  · exact hall.2.1
  · rintro w os m out ⟨ht, hos, hsought⟩ hplay
    have hseeks := seeks_play ht.catalogued hsought hplay
    refine ⟨tallied_play ht hplay, (hos.append hseeks.serviced).play hplay, fun f hf => ?_⟩
    rcases hseeks.covers f hf with hf | hf
    · exact (hsought f hf).play hplay
    · exact hf.play hplay

/-! ## What lookups return -/

/-- A call that places nothing is over at once. -/
theorem Returns.at_once {o : Outcome α} (hret : Returns w r op ms out reply) (hplay : w.play (.call r op) = some o)
    (hstack : o.1.stack = w.stack) : out = o := by
  rcases hret.cases with ⟨-, hplay'⟩ | ⟨l, m, mid, last, -, hlasts, -, -⟩
  · exact Option.some.inj (hplay'.symm.trans hplay)
  · have hrun : w.run [.call r op] = some (o.1, o.2 ++ []) := by
      rw [World.run, hplay]
      rfl
    have hmore := hlasts.inside [] List.nil_prefix _ hrun
    rw [show o.1.stack = _ from hstack] at hmore
    exact absurd hmore (Nat.lt_irrefl _)

theorem minted_of_returnAll (hg : w.registries[r]? = some g) (hallows : w.allows op = true)
    (hcall : w.call r g op = w.returnAll r hs) (hret : Returns w r op ms out reply) :
    reply.mentions.Sublist (mintedAt out.2 r) := by
  have hturn := hret.isClientsTurn
  have hplay := play_call hturn hallows hg
  rw [hcall, returnAll_eq hturn] at hplay
  have hout := hret.at_once hplay (mintAll_idle r hs w).2.1
  have href : Refers w r (_ ++ _) ([] ++ hs) _ := (Refers.nil w r [.called r op]).mintAll hg fun _ => rfl
  have hreply := hret.reply
  rw [hout, World.after, ← List.append_assoc, List.getLast?_append] at hreply
  obtain rfl : .references (w.mintAll r hs).1 = reply := by simpa using hreply
  rw [hout, World.after, ← List.append_assoc, mintedAt_append]
  exact href.minted.trans (List.sublist_append_left ..)

theorem minted_of_findOne {name : String} (hg : w.registries[r]? = some g)
    (hret : Returns w r (.findOne name) ms out reply) : reply.mentions.Sublist (mintedAt out.2 r) := by
  have hturn := hret.isClientsTurn
  have hplay := play_call hturn (show w.allows (.findOne name) = true from rfl) hg
  have hreply := hret.reply
  rw [call, findOne] at hplay
  split at hplay
  · rw [finish_eq hturn (by simp)] at hplay
    rw [hret.at_once hplay rfl, World.after, List.getLast?_append] at hreply
    obtain rfl : .reference none = reply := by simpa using hreply
    exact List.nil_sublist _
  · rename_i t ht
    dsimp only at hplay
    rw [finish_eq ((isClientsTurn_eq (stack_mint w r t)).trans hturn) (by simp), mint_of_get hg] at hplay
    have hout := hret.at_once hplay rfl
    rw [hout] at hreply ⊢
    obtain rfl : .reference (some _) = reply := by simpa [World.after] using hreply
    simp [Reply.mentions, World.after, mintedAt, Occurrence.mintedAt?]

/-- What a lookup returns was handed out meanwhile, in this order. -/
theorem minted_of_returns (hc : w.Catalogued) (hg : w.registries[r]? = some g) (hop : op.listsActive = true)
    (hret : Returns w r op ms out reply) : reply.mentions.Sublist (mintedAt out.2 r) := by
  cases op with
  | find name filtered =>
    cases filtered with
    | false => exact minted_of_returnAll hg rfl (by rw [call, find, if_neg Bool.false_ne_true]) hret
    | true =>
      have hsnapshot := snapshot_candidates hc (hc.indexes r g hg) name
      cases filtering_returns hret.isClientsTurn hg hsnapshot hret with
      | asking p done c rest found hstack =>
        have hback := hret.back
        rw [hstack, List.length_append, List.length_cons] at hback
        omega
      | ended done found hstack hcs hasked href hreply =>
        obtain rfl := Occurrence.returned.inj (Option.some.inj (hret.reply.symm.trans hreply))
        exact href.minted
  | findOne name => exact minted_of_findOne hg hret
  | registered b => exact minted_of_returnAll hg rfl rfl hret
  | hooks => exact minted_of_returnAll hg rfl rfl hret
  | _ => cases hop

end World

end Switchboard
