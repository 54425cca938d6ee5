/-
  Switchboard.Proofs.World.Bulk — all registrations of a bundle are withdrawn.

  The call works on a snapshot: what the bundle has published at its start. It withdraws one after
  the other, and while it does, call backs may withdraw others of the snapshot, publish more, or
  start the same call again. What the call has withdrawn and what it has still to look at are part
  of the snapshot, and all others of the snapshot are no longer active (`Sweeping`). A withdrawal
  that is under way when the call returns was under way when it started (`Phased.leaving`), so all
  of them are gone for good by then.

  What each call withdrew is on its record, and no registration is on two (`bulk_withdrawal`).
-/

import Switchboard.Proofs.World.Events

namespace Switchboard

variable {α : Type}

/-! ## How many calls are in flight -/

def callsIn : List (Frame α) → Nat
  | [] => 0
  | _ :: fs => if fs.head?.any Frame.isLoop then callsIn fs else callsIn fs + 1

theorem Fits.length {cs : List (Call α)} {fs : List (Frame α)} (hfits : Fits cs fs) : cs.length = callsIn fs := by
  induction hfits with
  | nil => rfl
  | one _ hbelow _ ih => simp [callsIn, hbelow, ih]
  | part _ _ hf hbelow _ ih => simp [callsIn, hf, hbelow, ih]

theorem callsIn_le_cons (f : Frame α) (fs : List (Frame α)) : callsIn fs ≤ callsIn (f :: fs) := by
  rw [callsIn]
  split <;> omega

theorem callsIn_le_append (p fs : List (Frame α)) : callsIn fs ≤ callsIn (p ++ fs) := by
  induction p with
  | nil => exact Nat.le_refl _
  | cons f p ih => exact Nat.le_trans ih (callsIn_le_cons f (p ++ fs))

variable {l : Log α} {os ns : List (Occurrence α)} {c d : Call α} {cs ds below : List (Call α)} {p fs : List (Frame α)}
  {f : Frame α} {r n : Nat} {b : BundleId} {h : Handle} {hs snapshot rest : List Handle}

/-- The innermost of these calls is above `c`. -/
theorem cons_of_above (heq : d :: ds = cs ++ c :: below) (hlt : below.length < ds.length) :
    ∃ cs', cs = d :: cs' ∧ ds = cs' ++ c :: below := by
  cases cs with
  | nil =>
    obtain ⟨-, rfl⟩ := List.cons.inj heq
    exact absurd hlt (Nat.lt_irrefl _)
  | cons d' cs' =>
    obtain ⟨rfl, rfl⟩ := List.cons.inj heq
    exact ⟨cs', rfl, rfl⟩

namespace World

variable {w v : World α} {g : Registry α} {top : Option (Frame α)} {out o : Outcome α} {m : Move α} {reply : Reply α}
  {hasSink : Bool}

/-- A turn above a call leaves that call and those below it alone. -/
theorem pending_turn (ht : Turn v top ns p) (hfits : Fits l.pending (top.toList ++ v.stack))
    (hpending : l.pending = cs ++ c :: below) (habove : ∀ f ∈ top, below.length < callsIn v.stack) :
    ∃ cs', (l.read ns).pending = cs' ++ c :: below := by
  have hannounced : ∀ (l' : Log α) (d : Call α), l'.pending = d :: l.pending → ∀ (hasSink : Bool) (f : Frame α) (reply : Reply α),
      ∃ cs', (l'.read (announced hasSink f reply).1).pending = cs' ++ c :: below := by
    intro l' d hl' hasSink f reply
    cases hasSink with
    | true => exact ⟨d :: cs, (pending_asks l' f).1.trans (hl'.trans (congrArg (d :: ·) hpending))⟩
    | false =>
      refine ⟨cs, ?_⟩
      show (l'.record (.returned reply)).pending = _
      rw [Log.record, hl']
      exact hpending
  cases ht with
  | holds => exact ⟨cs, hpending⟩
  | declines => exact ⟨cs, hpending⟩
  | @starts r op => exact ⟨⟨op, []⟩ :: cs, congrArg (_ :: ·) hpending⟩
  | @publishes r g b name source q e hg he =>
    rw [he]
    exact hannounced (l.record (.called r (.register b name source q))) _ rfl ..
  | @replaces r g h q x e hg hx hindexed he =>
    rw [he]
    exact hannounced (l.record (.called r (.setProperties h q))) _ rfl ..
  | @tells r g h old e hg he =>
    rw [he]
    exact hannounced (l.record (.called r (.modified h old))) _ rfl ..
  | @withdraws r g b h hg =>
    refine ⟨⟨.unregister b h, [h]⟩ :: cs, ?_⟩
    exact (pending_asks (l.read [.called r (.unregister b h), .retired r h]) (leaving g r h)).1.trans (congrArg (_ :: ·) hpending)
  | @sweeps r g snapshot rest h n hg =>
    obtain ⟨d, ds, hd, -, -, hrest⟩ := hfits.loop rfl
    obtain ⟨cs', -, rfl⟩ := cons_of_above (hd.symm.trans hpending) (hrest.length ▸ habove _ rfl)
    refine ⟨⟨d.op, d.retired ++ [h]⟩ :: cs', (pending_asks (l.record (.retired r h)) (leaving g r h)).1.trans ?_⟩
    rw [Log.record, hd]
    rfl
  | goesOn => exact ⟨cs, hpending⟩
  | hands => exact ⟨cs, hpending⟩
  | @ends f reply hconcludes =>
    unfold said
    split
    · exact ⟨cs, hpending⟩
    · rename_i hpart
      obtain ⟨d, ds, hd, -, hrest⟩ := hfits.top (Bool.eq_false_iff.mpr hpart)
      obtain ⟨cs', -, rfl⟩ := cons_of_above (hd.symm.trans hpending) (hrest.length ▸ habove _ rfl)
      refine ⟨cs', ?_⟩
      show (l.record (.returned reply)).pending = _
      rw [Log.record, hd]

/-- So does a move above the call's operation. -/
theorem pending_above (hl : Tracks (logOf os) os w.stack) (hplay : w.play m = some out) (hstack : w.stack = p ++ f :: fs)
    (hp : p ≠ []) (hfs : fs.head?.any Frame.isLoop = false) (hbelow : below.length = callsIn fs)
    (hpending : (logOf os).pending = cs ++ c :: below) :
    ∃ cs', (logOf (os ++ out.2)).pending = cs' ++ c :: below := by
  obtain ⟨v, top, rfl, -, htakes⟩ := takes_of_play hplay
  obtain ⟨q, ht, -⟩ := htakes.turn
  rw [logOf_append]
  refine pending_turn ht hl.fits hpending fun k hk => ?_
  obtain rfl := Option.mem_def.mp hk
  obtain ⟨k', p, rfl⟩ := List.exists_cons_of_ne_nil hp
  have hv : v.stack = p ++ f :: fs := (List.cons.inj hstack).2
  have hle := callsIn_le_append p (f :: fs)
  rw [callsIn, hfs] at hle
  rw [hv, hbelow]
  exact hle

/-! ## What is known of a run -/

structure Followed (c : Config) (hasSink : Bool) (w : World α) (os : List (Occurrence α)) : Prop where
  standing : ∃ g, Standing w g
  tallied : Tallied [(c, hasSink)] w os
  tracks : Tracks (logOf os) os w.stack
  word : ∀ h, Word (w.phase? h) (deeds os h)

theorem followed_play {c : Config} (hf : Followed c hasSink w os) (hplay : w.play m = some out) :
    Followed c hasSink out.1 (os ++ out.2) := by
  obtain ⟨g, hst⟩ := hf.standing
  exact ⟨standing_play hst hplay, tallied_play hf.tallied hplay, tracks_play hf.tracks hplay,
    fun h => word_play hst (hf.word h) hplay⟩

theorem followed_run {c : Config} {ms : List (Move α)} (hrun : (start [(c, hasSink)]).run ms = some out) :
    Followed c hasSink out.1 out.2 := by
  refine run_induction (P := Followed c hasSink) (fun _ _ _ _ => followed_play) ms _ [] out ?_ hrun
  exact ⟨⟨_, standing_start c hasSink⟩, tallied_start _, tracks_start _, fun h => .unpublished⟩

/-! ## The sweep -/

/-- The call has withdrawn `hs` of the snapshot and has `rest` to look at. -/
structure Sweeping (w : World α) (os : List (Occurrence α)) (r : Nat) (b : BundleId) (snapshot : List Handle)
    (o : Outcome α) (p : List (Frame α)) (cs : List (Call α)) (hs rest : List Handle) : Prop where
  stack : o.1.stack = p ++ .unregistering r snapshot rest hs.length :: w.stack
  pending : (logOf (os ++ o.2)).pending = cs ++ ⟨.unregisterAll b, hs⟩ :: (logOf os).pending
  sublist : (hs ++ rest).Sublist snapshot
  registered : ∀ h ∈ snapshot, (o.1.registration? h).isSome
  done : ∀ h ∈ snapshot, h ∉ rest → o.1.isActive h = false

theorem registered_play (hplay : w.play m = some out) (hx : (w.registration? h).isSome) : (out.1.registration? h).isSome := by
  obtain ⟨v, top, rfl, -, hs⟩ := play_step hplay
  exact registered_step hs hx

/-- What is not active never is again. -/
theorem inactive_play (hplay : w.play m = some out) (hx : (w.registration? h).isSome) (hinactive : w.isActive h = false) :
    out.1.isActive h = false := by
  obtain ⟨v, top, rfl, -, hs⟩ := play_step hplay
  exact inactive_step hs hx hinactive

theorem inactive_run {ms : List (Move α)} (hrun : w.run ms = some out) (hx : (w.registration? h).isSome)
    (hinactive : w.isActive h = false) : out.1.isActive h = false := by
  have hboth := run_induction (P := fun u _ => (u.registration? h).isSome = true ∧ u.isActive h = false)
    (fun u _ m out hu hplay => ⟨registered_play hplay hu.1, inactive_play hplay hu.1 hu.2⟩) ms w [] out ⟨hx, hinactive⟩ hrun
  exact hboth.2

/-- What a withdrawal does not start with is not active. -/
theorem inactive_of_declined (hst : Standing (v.onto top) g) (hx : (v.registration? h).isSome)
    (hnone : v.retire? r g h = none) : v.isActive h = false := by
  obtain ⟨x, hx⟩ := Option.isSome_iff_exists.mp hx
  by_contra hactive
  rw [Bool.not_eq_false] at hactive
  have hphase := isActive_iff.mp hactive
  rw [phase?_of_some hx, Option.some.injEq] at hphase
  have hindexed := (hst.listed h x hx).mpr hphase
  simp [retire?, hx, hindexed, hactive] at hnone

/-- When its frame is innermost, the call is. -/
theorem Sweeping.innermost (hsw : Sweeping w os r b snapshot o [] cs hs rest) (hl : Tracks (logOf (os ++ o.2)) (os ++ o.2) o.1.stack)
    (hturn : w.isClientsTurn = true) (hbelow : (logOf os).pending.length = callsIn w.stack) : cs = [] := by
  have hlength := hl.fits.length
  rw [hsw.pending, hsw.stack, List.nil_append, callsIn, not_loop_of_turn hturn, List.length_append, List.length_cons, hbelow] at hlength
  apply List.eq_nil_of_length_eq_zero
  simp only [Bool.false_eq_true, if_false] at hlength
  omega

/-- The call has looked at the next of the snapshot, which is not active now. -/
theorem Sweeping.next {hs' : List Handle}
    (hsw : Sweeping w os r b snapshot (v.onto (some f), ns) [] [] hs (h :: rest)) (hstep : Step v (some f) out)
    (hstack : out.1.stack = p ++ .unregistering r snapshot rest hs'.length :: w.stack)
    (hpending : ((logOf (os ++ ns)).read out.2).pending = ⟨.unregisterAll b, hs'⟩ :: (logOf os).pending)
    (hsublist : (hs' ++ rest).Sublist (hs ++ h :: rest)) (hgone : out.1.isActive h = false) :
    Sweeping w os r b snapshot (out.1, ns ++ out.2) p [] hs' rest where
  stack := hstack
  pending := by
    rw [← List.append_assoc, logOf, Log.read_append]
    exact hpending
  sublist := hsublist.trans hsw.sublist
  registered t ht := registered_step hstep (hsw.registered t ht)
  done t ht hnot := by
    by_cases hth : t = h
    · rw [hth]
      exact hgone
    · have hinactive := hsw.done t ht (by simp [hth, hnot])
      exact (inactive_step hstep (hsw.registered t ht) hinactive :)

/-- The call looks at the next of the snapshot, or returns how many it has withdrawn. -/
theorem sweeping_goesOn (hst : Standing (v.onto (some (.unregistering r snapshot rest hs.length))) g)
    (hsw : Sweeping w os r b snapshot (v.onto (some (.unregistering r snapshot rest hs.length)), ns) [] [] hs rest)
    (hturn : w.isClientsTurn = true) (hgo : GoesOn v (.unregistering r snapshot rest hs.length) out) :
    (rest = [] ∧ out = (v, [.returned (.count hs.length)])) ∨
      ∃ p hs' rest', Sweeping w os r b snapshot (out.1, ns ++ out.2) p [] hs' rest' := by
  have hv : v.stack = w.stack := (List.cons.inj hsw.stack).2
  have hstep := hgo.step
  rcases hgo with ⟨q, a, o, hq, -, -⟩ | hout
  · cases hq
  obtain ⟨k, hk, hout⟩ := Option.map_eq_some_iff.mp hout
  obtain ⟨rfl, rfl⟩ := sole_get hst.sole hk
  cases rest with
  | nil =>
    left
    rw [unregisterNext, finish_eq ((isClientsTurn_eq hv).trans hturn) (by simp)] at hout
    exact ⟨rfl, hout.symm⟩
  | cons h rest =>
    right
    rw [unregisterNext] at hout
    split at hout
    · rename_i w' hw
      obtain ⟨x, -, -, -, rfl⟩ := retire?_eq_some hw
      subst hout
      refine ⟨[leaving k 0 h], hs ++ [h], rest, hsw.next hstep ?_ ?_ (by simp) ?_⟩
      · rw [List.length_append, List.length_singleton, ← hv]
        rfl
      · refine (pending_asks ((logOf (os ++ ns)).record (.retired 0 h)) (leaving k 0 h)).1.trans ?_
        rw [Log.record, hsw.pending]
        rfl
      · show (v.setPhase h .unregistering).isActive h = false
        rw [isActive, phase?_setPhase, if_pos rfl]
        cases v.phase? h <;> rfl
    · rename_i hnone
      subst hout
      have hx := hsw.registered h (hsw.sublist.subset (by simp))
      have hgone : v.isActive h = false := inactive_of_declined hst hx hnone
      refine ⟨[], hs, rest, hsw.next hstep ?_ hsw.pending (by simp) hgone⟩
      rw [← hv]
      rfl

/-- While it is in flight, every move leaves it in flight or makes it return. -/
theorem sweeping_play {c : Config} (hf : Followed c hasSink o.1 (os ++ o.2)) (hturn : w.isClientsTurn = true)
    (hbelow : (logOf os).pending.length = callsIn w.stack) (hsw : Sweeping w os r b snapshot o p cs hs rest)
    (hplay : o.1.play m = some out) :
    (rest = [] ∧ cs = [] ∧ out = ({ o.1 with stack := w.stack }, [.returned (.count hs.length)])) ∨
      ∃ p' cs' hs' rest', Sweeping w os r b snapshot (out.1, o.2 ++ out.2) p' cs' hs' rest' := by
  rcases play_inside hplay hsw.stack with ⟨p', hstack', hawait⟩ | ⟨rfl, hgo⟩
  · right
    have hregistered : ∀ h ∈ snapshot, (out.1.registration? h).isSome :=
      fun h hh => registered_play hplay (hsw.registered h hh)
    have hinactive : ∀ h ∈ snapshot, h ∉ rest → out.1.isActive h = false :=
      fun h hh hnot => inactive_play hplay (hsw.registered h hh) (hsw.done h hh hnot)
    have hp : p ≠ [] := by
      intro hnil
      cases hawait hnil
    obtain ⟨cs', hpending⟩ :=
      pending_above hf.tracks hplay hsw.stack hp (not_loop_of_turn hturn) hbelow hsw.pending
    refine ⟨p', cs', hs, rest, hstack', ?_, hsw.sublist, hregistered, hinactive⟩
    rw [← List.append_assoc]
    exact hpending
  · obtain rfl := hsw.innermost hf.tracks hturn hbelow
    obtain ⟨g, hst⟩ := hf.standing
    have ho : o.1 = World.onto { o.1 with stack := w.stack } (some (.unregistering r snapshot rest hs.length)) := eq_onto hsw.stack
    have ho' : (o.1, o.2) = o := rfl
    rw [ho] at hst
    rw [← ho', ho] at hsw
    rcases sweeping_goesOn hst hsw hturn hgo with ⟨hrest, hout⟩ | ⟨p', hs', rest', hsw'⟩
    · exact Or.inl ⟨hrest, rfl, hout⟩
    · exact Or.inr ⟨p', [], hs', rest', hsw'⟩

/-- The call starts with all that its bundle has published. -/
theorem sweeping_call (hi : w.Indexes r g) :
    Sweeping w os r b (g.owned b) (after [.called r (.unregisterAll b)] (w.call r g (.unregisterAll b))) [] [] [] (g.owned b) where
  stack := rfl
  pending := by
    show (Log.read ⟨[], [], []⟩ (os ++ [.called r (.unregisterAll b)])).pending = _
    rw [Log.read_append]
    rfl
  sublist := List.Sublist.refl _
  registered h hh := by
    obtain ⟨x, hx, -⟩ := (mem_owned hi).mp hh
    have hsome : (w.registration? h).isSome := by
      rw [hx]
      rfl
    exact hsome
  done h hh hnot := absurd hh hnot

/-- What the call leaves behind. -/
theorem swept_of_returns {c : Config} {ms : List (Move α)} (hf : Followed c hasSink w os)
    (hret : Returns w r (.unregisterAll b) ms out reply) : ∃ g hs, w.registries[r]? = some g ∧
      out.1.stack = w.stack ∧ hs.Sublist (g.owned b) ∧ reply = .count hs.length ∧
      (logOf (os ++ out.2)).ended.getLast? = some (⟨.unregisterAll b, hs⟩, reply) ∧
      Followed c hasSink out.1 (os ++ out.2) ∧ ∀ h ∈ g.owned b, out.1.isActive h = false := by
  obtain ⟨first, hfirst, -⟩ := Option.bind_eq_some_iff.mp hret.run
  obtain ⟨hturn, -, g, hg, rfl⟩ := calls_of_play hfirst
  have hbelow := hf.tracks.fits.length
  have hmoves := hret.induction (P := fun o => Followed c hasSink o.1 (os ++ o.2) ∧
    ∃ p cs hs rest, Sweeping w os r b (g.owned b) o p cs hs rest) ?hcall ?hstep
  case hcall =>
    intro o hplay _
    obtain rfl := Option.some.inj (hfirst.symm.trans hplay)
    exact ⟨followed_play hf hplay, _, _, _, _, sweeping_call (hf.tallied.catalogued.indexes r g hg)⟩
  case hstep =>
    intro o m last hP hplay hmore
    obtain ⟨hfo, p, cs, hs, rest, hsw⟩ := hP
    refine ⟨List.append_assoc os o.2 last.2 ▸ followed_play hfo hplay, ?_⟩
    rcases sweeping_play hfo hturn hbelow hsw hplay with ⟨-, -, rfl⟩ | hsw'
    · exact absurd hmore (Nat.lt_irrefl _)
    · exact hsw'
  rcases hmoves with hplay | ⟨o, m, last, ⟨hfo, p, cs, hs, rest, hsw⟩, hplay, rfl⟩
  · -- The call's frame would still be in flight.
    obtain rfl := Option.some.inj (hfirst.symm.trans hplay)
    have hback := hret.back
    exact absurd hback (Nat.succ_ne_self _)
  · rcases sweeping_play hfo hturn hbelow hsw hplay with ⟨rfl, rfl, hlast⟩ | ⟨p', cs', hs', rest', hsw'⟩
    · have hflast := followed_play hfo hplay
      subst hlast
      have hreply := hret.reply
      rw [List.getLast?_append] at hreply
      obtain rfl := Occurrence.returned.inj (Option.some.inj hreply)
      refine ⟨g, hs, hg, rfl, ?_, rfl, ?_, List.append_assoc .. ▸ hflast, ?_⟩
      · rw [← List.append_nil hs]
        exact hsw.sublist
      · show (Log.read ⟨[], [], []⟩ (os ++ (o.2 ++ [.returned (.count hs.length)]))).ended.getLast? = _
        rw [← List.append_assoc, Log.read_append]
        show ((logOf (os ++ o.2)).record (.returned (.count hs.length))).ended.getLast? = _
        rw [Log.record, hsw.pending]
        exact List.getLast?_concat
      · exact fun h hh => hsw.done h hh (by simp)
    · have hback := hret.back
      rw [hsw'.stack, List.length_append, List.length_cons] at hback
      omega

/-! ## What the calls return -/

def reported : Call α × Reply α → Nat
  | (⟨.unregister .., _⟩, .flag true) => 1
  | (⟨.unregisterAll _, _⟩, .count n) => n
  | _ => 0

/-- It has withdrawn that many. -/
theorem reported_eq {op : Operation α} (hreports : Reports op hs reply) : reported (⟨op, hs⟩, reply) = hs.length := by
  cases hreports with
  | withdrew => rfl
  | kept hreply =>
    cases reply with
    | flag b =>
      cases b with
      | true => exact absurd rfl hreply
      | false => rfl
    | _ => rfl
  | swept => rfl
  | other hop =>
    cases op with
    | unregister => cases hop
    | unregisterAll => cases hop
    | _ => rfl

def inactive (w : World α) : List Handle := (List.range w.registrations.size).filter fun h => !w.isActive h

/-- Each registration that was withdrawn is on the record of one call, once, and the calls that are over return how many
    are on theirs. -/
structure CountsOnce (w : World α) (os : List (Occurrence α)) : Prop where
  once : ((logOf os).calls.flatMap (·.retired)).Perm w.inactive
  reports : ∀ e ∈ (logOf os).ended, reported e = e.1.retired.length
  rest : w.stack = [] → ((logOf os).ended.map reported).sum = w.inactive.length

theorem count_inactive (w : World α) (h : Handle) : w.inactive.count h =
    if (w.registration? h).isSome = true ∧ w.isActive h = false then 1 else 0 := by
  have hnodup : w.inactive.Nodup := List.nodup_range.filter _
  rw [hnodup.count]
  simp [inactive, lt_size_iff]

theorem countsOnce_of {c : Config} (hf : Followed c hasSink w os) : CountsOnce w os := by
  have honce : ((logOf os).calls.flatMap (·.retired)).Perm w.inactive := by
    refine List.perm_iff_count.mpr fun h => ?_
    have hword := hf.word h
    rw [count_inactive, show List.count h _ = (logOf os).withdrawals h from rfl, hf.tracks.withdrawals h, isActive]
    generalize deeds os h = ks at hword
    cases hx : w.registration? h with
    | none =>
      rw [phase?_eq_none.mpr hx] at hword
      cases hword
      simp
    | some x =>
      rw [phase?_of_some hx] at hword ⊢
      generalize x.phase = phase at hword
      cases hword with
      | active n => simp [List.count_replicate]
      | withdrawn hp n => simp [List.count_replicate, hp]
  have hreports : ∀ e ∈ (logOf os).ended, reported e = e.1.retired.length :=
    fun e he => reported_eq (hf.tracks.reports e he)
  refine ⟨honce, hreports, fun hrest => ?_⟩
  have hpending : (logOf os).pending = [] := by
    have hlength := hf.tracks.fits.length
    rw [hrest] at hlength
    exact List.eq_nil_of_length_eq_zero hlength
  rw [← honce.length_eq, Log.calls, hpending, List.nil_append, List.length_flatMap, List.map_map]
  exact congrArg List.sum (List.map_congr_left hreports)

structure Sweeps (w : World α) (os : List (Occurrence α)) (b : BundleId) (out : Outcome α) (reply : Reply α) : Prop where
  /-- All that was active of the bundle at the call is invalid at the return. -/
  gone : ∀ h, w.isActive h = true → w.isOf b h = true → out.1.phase? h = some .invalid
  /-- It returns how many are on its record, and these are some of them. -/
  counts : ∃ hs, reply = .count hs.length ∧
    (logOf (os ++ out.2)).ended.getLast? = some (⟨.unregisterAll b, hs⟩, reply) ∧
    hs.Nodup ∧ ∀ h ∈ hs, w.isActive h = true ∧ w.isOf b h = true
  /-- If nothing of the bundle is published meanwhile, it has nothing active left. -/
  empties : (∀ r h, .published r h ∈ out.2 → out.1.isOf b h = false) → ∀ h, out.1.isOf b h = true → out.1.isActive h = false

/-- A bundle's list at its registry is what it has active. -/
theorem mem_owned_iff (hst : Standing w g) (hi : w.Indexes 0 g) :
    h ∈ g.owned b ↔ w.isActive h = true ∧ w.isOf b h = true := by
  rw [mem_owned hi, isActive_iff, isOf_iff]
  constructor
  · intro howned
    obtain ⟨x, hx, -, hbundle, hphase⟩ := howned
    exact ⟨(phase?_of_some hx).trans (congrArg some hphase), x, hx, hbundle⟩
  · intro hactive
    obtain ⟨hphase, x, hx, rfl⟩ := hactive
    rw [phase?_of_some hx, Option.some.injEq] at hphase
    have hindexed := (hst.listed h x hx).mpr hphase
    exact ⟨x, hx, (hi.home hx hindexed).1, rfl, hphase⟩

/-- Where the same withdrawals are under way, what was active and no longer is, is invalid. -/
theorem invalid_of_inactive {g' : Registry α} (hst : Standing w g) (hst' : Standing out.1 g') (hstack : out.1.stack = w.stack)
    (hactive : w.isActive h = true) (hx : (out.1.registration? h).isSome) (hinactive : out.1.isActive h = false) :
    out.1.phase? h = some .invalid := by
  obtain ⟨y, hy⟩ := Option.isSome_iff_exists.mp hx
  have hleaving := hst'.leaving h
  rw [hstack, hst.leaving h, isActive_iff.mp hactive, phase?_of_some hy] at hleaving
  rw [isActive, phase?_of_some hy] at hinactive
  rw [phase?_of_some hy]
  cases hphase : y.phase <;> simp_all

/-- What came was said to be published. -/
theorem published_of_new {c : Config} (hf : Followed c hasSink w os) (hf' : Followed c hasSink out.1 (os ++ out.2))
    (hnone : w.registration? h = none) (hx : (out.1.registration? h).isSome) : ∃ r, .published r h ∈ out.2 := by
  have hbefore := hf.word h
  rw [phase?_eq_none.mpr hnone] at hbefore
  have hafter := hf'.word h
  obtain ⟨y, hy⟩ := Option.isSome_iff_exists.mp hx
  rw [phase?_of_some hy] at hafter
  have hmem : EventKind.registered ∈ deeds (os ++ out.2) h := by
    generalize deeds (os ++ out.2) h = ks at hafter
    generalize y.phase = phase at hafter
    cases hafter <;> simp
  obtain ⟨q, hq⟩ := registered_mem_deeds.mp hmem
  rcases List.mem_append.mp hq with hq | hq
  · have hdeed := registered_mem_deeds.mpr ⟨q, hq⟩
    generalize deeds os h = ks at hbefore hdeed
    cases hbefore
    cases hdeed
  · exact ⟨q, hq⟩

theorem sweeps_of {c : Config} {ms : List (Move α)} (hf : Followed c hasSink w os)
    (hret : Returns w r (.unregisterAll b) ms out reply) : Sweeps w os b out reply := by
  obtain ⟨g, hs, hg, hstack, hsub, hreply, hended, hf', hinactive⟩ := swept_of_returns hf hret
  have hi := hf.tallied.catalogued.indexes r g hg
  obtain ⟨g₀, hst⟩ := hf.standing
  obtain ⟨rfl, rfl⟩ := sole_get hst.sole hg
  obtain ⟨g', hst'⟩ := hf'.standing
  have hgone : ∀ h, w.isActive h = true → w.isOf b h = true → out.1.phase? h = some .invalid := by
    intro h hactive hof
    obtain ⟨x, hx, -⟩ := isOf_iff.mp hof
    obtain ⟨y, hy, -⟩ := origin_run hret.run hx
    exact invalid_of_inactive hst hst' hstack hactive (Option.isSome_of_eq_some hy)
      (hinactive h ((mem_owned_iff hst hi).mpr ⟨hactive, hof⟩))
  refine ⟨hgone, ⟨hs, hreply, hended, ?_, ?_⟩, ?_⟩
  · rw [hi.owned] at hsub
    exact ((nodup_publications w 0).filter _).sublist hsub
  · exact fun h hh => (mem_owned_iff hst hi).mp (hsub.subset hh)
  · intro hnone h hof
    obtain ⟨y, hy, hbundle⟩ := isOf_iff.mp hof
    cases hx : w.registration? h with
    | none =>
      -- It came meanwhile.
      obtain ⟨q, hq⟩ := published_of_new hf hf' hx (Option.isSome_of_eq_some hy)
      rw [hnone q h hq] at hof
      cases hof
    | some x =>
      obtain ⟨y', hy', horigin⟩ := origin_run hret.run hx
      obtain rfl := Option.some.inj (hy.symm.trans hy')
      have hof' : w.isOf b h = true := isOf_iff.mpr ⟨x, hx, (congrArg Registration.bundle horigin).symm.trans hbundle⟩
      cases hactive : w.isActive h with
      | true =>
        rw [isActive, hgone h hactive hof']
        rfl
      | false => exact inactive_run hret.run (Option.isSome_of_eq_some hx) hactive

/-- In every reachable world of one registry, each registration that was withdrawn was counted by one call, once. And
    whenever `unregisterAll` returns, whatever call backs did meanwhile, all that its bundle had active at the call
    is invalid, it returns how many of them it has withdrawn itself, and unless call backs published for the
    bundle it has nothing active left. -/
theorem bulk_withdrawal {c : Config} {before : List (Move α)} (hbefore : (start [(c, hasSink)]).run before = some (w, os)) :
    CountsOnce w os ∧ ∀ r b ms out reply, Returns w r (.unregisterAll b) ms out reply → Sweeps w os b out reply := by
  have hf : Followed c hasSink w os := followed_run hbefore
  exact ⟨countsOnce_of hf, fun r b ms out reply hret => sweeps_of hf hret⟩

def publishesThree : List (Move Nat) :=
  [.call 0 (.register 7 "a" (.object 1) none), .answer .done, .call 0 (.register 7 "b" (.object 2) none), .answer .done,
   .call 0 (.register 7 "c" (.object 3) none), .answer .done]

/-- While the sink is told that the first goes, it withdraws the second, and then all that are left. -/
def sweepsWithin : List (Move Nat) :=
  [.tick, .call 0 (.unregister 7 1), .answer .done, .tick, .tick, .call 0 (.unregisterAll 7), .tick, .answer .done, .tick,
   .tick, .tick, .answer .done, .tick, .tick, .tick, .tick, .tick]

def returnsCount (n : Nat) (os : List (Occurrence Nat)) : Bool :=
  match os.getLast? with
  | some (.returned (.count k)) => k == n
  | _ => false

theorem returned_of_returnsCount {n : Nat} {os : List (Occurrence Nat)} (h : returnsCount n os = true) :
    os.getLast? = some (.returned (.count n)) := by
  unfold returnsCount at h
  split at h
  · rename_i hlast
    rw [hlast, beq_iff_eq.mp h]
  · cases h

/-- Each of the three calls has withdrawn one. -/
theorem bulk_withdrawal_sweepsWithin : ∃ w os out, (start [(Config.standard, true)]).run publishesThree = some (w, os) ∧
    Returns w 0 (.unregisterAll 7) sweepsWithin out (.count 1) ∧ Sweeps w os 7 out (.count 1) ∧
    (logOf (os ++ out.2)).ended.length = 6 ∧ ((logOf (os ++ out.2)).ended.map reported).sum = 3 := by
  have hany : ((start [(Config.standard, true)]).run publishesThree).any (fun before =>
      before.1.returns 0 (.unregisterAll 7) sweepsWithin (fun out => returnsCount 1 out.2 && out.1.stack.isEmpty &&
        out.1.inactive.length == 3 && (logOf (before.2 ++ out.2)).ended.length == 6)) = true := by
    decide +kernel
  obtain ⟨⟨w, os⟩, hbefore, hreturns⟩ := (Option.any_eq_true _ _).mp hany
  obtain ⟨out, hout, hret⟩ := returns_of_all hreturns
  simp only [Bool.and_eq_true, beq_iff_eq, List.isEmpty_iff] at hout
  obtain ⟨⟨⟨hcount, hrest⟩, hinactive⟩, hended⟩ := hout
  have hret' := hret _ (returned_of_returnsCount hcount)
  have hafter : (start [(Config.standard, true)]).run (publishesThree ++ .call 0 (.unregisterAll 7) :: sweepsWithin) =
      some (out.1, os ++ out.2) := run_trans hbefore hret'.run
  refine ⟨w, os, out, hbefore, hret', (bulk_withdrawal hbefore).2 _ _ _ _ _ hret', hended, ?_⟩
  rw [(bulk_withdrawal hafter).1.rest hrest, hinactive]

end World

end Switchboard
