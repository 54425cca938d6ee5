/-
  Switchboard.Proofs.World.Log — which call did what, and what the sink was told.

  A log keeps the calls that are not over, innermost first, with what each of them has withdrawn;
  those that are over, with what they returned; and the events in the order their deliveries
  started, but for those that the client asks for as such (`Log.record`).

  The calls that are not over are those in flight (`Fits`), so each is logged with what it does:
  what changed and what withdrew a registration is some call, and what calls return is what they did
  (`tracks_turn`). Where there is a sink, it is told of each registration what was done to it, which
  is once that it is published, once for each call that set its properties, and once for each call
  that withdrew it (`events_turn`).
-/

import Switchboard.Proofs.World.Turn

namespace Switchboard

variable {α : Type}

/-! ## What is done to a registration -/

def Occurrence.deed? (h : Handle) : Occurrence α → Option EventKind
  | published _ t => if t == h then some .registered else none
  | replaced _ t _ => if t == h then some .modified else none
  | retired _ t => if t == h then some .unregistering else none
  | _ => none

def deeds (os : List (Occurrence α)) (h : Handle) : List EventKind := os.filterMap (·.deed? h)

theorem deeds_append (os os' : List (Occurrence α)) (h : Handle) : deeds (os ++ os') h = deeds os h ++ deeds os' h :=
  List.filterMap_append

theorem deeds_cons (o : Occurrence α) (os : List (Occurrence α)) (h : Handle) :
    deeds (o :: os) h = (o.deed? h).toList ++ deeds os h := by
  rw [deeds, List.filterMap_cons]
  cases o.deed? h <;> rfl

theorem deeds_news (os : List (Occurrence α)) (h : Handle) : deeds (news os) h = deeds os h := by
  rw [deeds, news, List.filterMap_filter, deeds]
  refine List.filterMap_congr fun o _ => ?_
  cases o with
  | asked q => cases q <;> rfl
  | _ => rfl

/-! ## Logs -/

def Operation.sets (h : Handle) : Operation α → Bool
  | setProperties t _ => t == h
  | _ => false

theorem Operation.sets_of_not {op : Operation α} (hset : ∀ h p, op ≠ .setProperties h p) (h : Handle) :
    op.sets h = false := by
  cases op with
  | setProperties t p => exact absurd rfl (hset t p)
  | _ => rfl

def Operation.tells : Operation α → Bool
  | modified .. => true
  | _ => false

def Reply.isTrue : Reply α → Bool
  | flag b => b
  | _ => false

/-- A call, and what it has withdrawn. -/
structure Call (α : Type) where
  op : Operation α
  retired : List Handle

structure Log (α : Type) where
  /-- The calls that are not over, innermost first. -/
  pending : List (Call α)
  ended : List (Call α × Reply α)
  events : List (Handle × EventKind)

def about (es : List (Handle × EventKind)) (h : Handle) : List EventKind := (es.filter (·.1 == h)).map (·.2)

theorem about_append (es es' : List (Handle × EventKind)) (h : Handle) :
    about (es ++ es') h = about es h ++ about es' h := by
  rw [about, List.filter_append, List.map_append]
  rfl

theorem about_singleton (t : Handle) (kind : EventKind) (h : Handle) :
    about [(t, kind)] h = if t == h then [kind] else [] := by
  rw [about, List.filter_singleton]
  cases t == h <;> rfl

namespace Log

def record (l : Log α) : Occurrence α → Log α
  | .called _ op => { l with pending := ⟨op, []⟩ :: l.pending }
  | .retired _ h => { l with pending := l.pending.modifyHead fun c => { c with retired := c.retired ++ [h] } }
  | .asked (.event _ kind h _) =>
    if l.pending.head?.any (·.op.tells) then l else { l with events := l.events ++ [(h, kind)] }
  | .returned reply =>
    match l.pending with
    | [] => l
    | c :: cs => { l with pending := cs, ended := l.ended ++ [(c, reply)] }
  | _ => l

def read (l : Log α) (os : List (Occurrence α)) : Log α := os.foldl record l

theorem read_append (l : Log α) (os os' : List (Occurrence α)) : l.read (os ++ os') = (l.read os).read os' :=
  List.foldl_append

theorem read_news (l : Log α) (os : List (Occurrence α)) : l.read (news os) = l.read os := by
  have hskip : ∀ (l : Log α) (o : Occurrence α), o.isNews = false → l.record o = l := by
    intro l o ho
    cases o with
    | asked q =>
      cases q with
      | event => cases ho
      | _ => rfl
    | called => cases ho
    | returned => cases ho
    | retired => cases ho
    | _ => rfl
  induction os generalizing l with
  | nil => rfl
  | cons o os ih =>
    show (news (o :: os)).foldl record l = (l.record o).read os
    rw [news, List.filter_cons]
    split
    · exact ih (l.record o)
    · rename_i ho
      rw [hskip l o (Bool.eq_false_iff.mpr ho)]
      exact ih l

def calls (l : Log α) : List (Call α) := l.pending ++ l.ended.map (·.1)

/-- How many calls have set the properties of `h`: those that returned that they did, and those
    that have still to return. -/
def settings (l : Log α) (h : Handle) : Nat :=
  l.pending.countP (·.op.sets h) + l.ended.countP fun e => e.1.op.sets h && e.2.isTrue

def withdrawals (l : Log α) (h : Handle) : Nat := (l.calls.flatMap (·.retired)).count h

end Log

def logOf (os : List (Occurrence α)) : Log α := Log.read ⟨[], [], []⟩ os

/-! ## The calls in flight -/

/-- A call in flight is one frame, or a loop below the frame of its part. -/
inductive Fits : List (Call α) → List (Frame α) → Prop
  | nil : Fits [] []
  | one {c : Call α} {cs : List (Call α)} {f : Frame α} {fs : List (Frame α)} (hserves : Serves c.op c.retired f)
      (hbelow : fs.head?.any Frame.isLoop = false) (hrest : Fits cs fs) : Fits (c :: cs) (f :: fs)
  | part {c : Call α} {cs : List (Call α)} {k f : Frame α} {fs : List (Frame α)} (hserves : Serves c.op c.retired f)
      (hk : k.isLoop = false) (hf : f.isLoop = true) (hbelow : fs.head?.any Frame.isLoop = false) (hrest : Fits cs fs) :
      Fits (c :: cs) (k :: f :: fs)

/-- The log tells who changed and who withdrew each registration, and the calls in flight are these
    frames. -/
structure Tracks (l : Log α) (os : List (Occurrence α)) (fs : List (Frame α)) : Prop where
  fits : Fits l.pending fs
  reports : ∀ e ∈ l.ended, Reports e.1.op e.1.retired e.2
  settings : ∀ h, l.settings h = (deeds os h).count .modified
  withdrawals : ∀ h, l.withdrawals h = (deeds os h).count .unregistering

structure Logs (l : Log α) (os : List (Occurrence α)) (fs : List (Frame α)) : Prop where
  fits : Fits l.pending fs
  reports : ∀ e ∈ l.ended, Reports e.1.op e.1.retired e.2
  events : ∀ h, about l.events h = deeds os h
  settings : ∀ h, l.settings h = (deeds os h).count .modified
  withdrawals : ∀ h, l.withdrawals h = (deeds os h).count .unregistering

variable {l l' : Log α} {os ns : List (Occurrence α)} {fs p : List (Frame α)} {f : Frame α} {op : Operation α}
  {h : Handle} {hs : List Handle}
  {cs : List (Call α)} {reply : Reply α}

/-- A frame that is no part serves the innermost call. -/
theorem Fits.top (hfits : Fits cs (f :: fs)) (hbelow : fs.head?.any Frame.isLoop = false) :
    ∃ c cs', cs = c :: cs' ∧ Serves c.op c.retired f ∧ Fits cs' fs := by
  cases hfits with
  | one hserves _ hrest => exact ⟨_, _, rfl, hserves, hrest⟩
  | part _ _ hf => simp [hf] at hbelow

/-- A loop on top serves the innermost call. -/
theorem Fits.loop (hfits : Fits cs (f :: fs)) (hf : f.isLoop = true) :
    ∃ c cs', cs = c :: cs' ∧ Serves c.op c.retired f ∧ fs.head?.any Frame.isLoop = false ∧ Fits cs' fs := by
  cases hfits with
  | one hserves hbelow hrest => exact ⟨_, _, rfl, hserves, hbelow, hrest⟩
  | part _ hk => simp [hf] at hk

/-- When a part is over, its loop is on top. -/
theorem Fits.partOver (hfits : Fits cs (f :: fs)) (hbelow : fs.head?.any Frame.isLoop = true) : Fits cs fs := by
  cases hfits with
  | one _ hbelow' => simp [hbelow] at hbelow'
  | part hserves _ _ hbelow' hrest => exact .one hserves hbelow' hrest

theorem Fits.replace {f' : Frame α} (hfits : Fits cs (f :: fs)) (hserves : ∀ op hs, Serves op hs f → Serves op hs f')
    (hloop : f'.isLoop = f.isLoop) : Fits cs (f' :: fs) := by
  cases hfits with
  | one hf hbelow hrest => exact .one (hserves _ _ hf) hbelow hrest
  | part hf hk hloop' hbelow hrest => exact .part hf (hloop.trans hk) hloop' hbelow hrest

/-- Only calls that are there to withdraw have withdrawn something. -/
theorem Fits.withdraws (hfits : Fits cs fs) : ∀ c ∈ cs, c.retired ≠ [] → c.op.withdraws = true := by
  have hserves : ∀ {op : Operation α} {hs : List Handle} {f : Frame α}, Serves op hs f → hs ≠ [] → op.withdraws = true := by
    intro op hs f hserves hne
    cases hserves <;> first | rfl | exact absurd rfl hne
  induction hfits with
  | nil => exact fun c hc => by cases hc
  | one hf _ _ ih =>
    intro c hc
    rcases List.mem_cons.mp hc with rfl | hc
    · exact hserves hf
    · exact ih c hc
  | part hf _ _ _ _ ih =>
    intro c hc
    rcases List.mem_cons.mp hc with rfl | hc
    · exact hserves hf
    · exact ih c hc

theorem Reports.withdraws (hreports : Reports op hs reply) (hne : hs ≠ []) : op.withdraws = true := by
  cases hreports with
  | withdrew => rfl
  | swept => rfl
  | _ => exact absurd rfl hne

theorem Logs.tracks (hl : Logs l os fs) : Tracks l os fs := ⟨hl.fits, hl.reports, hl.settings, hl.withdrawals⟩

theorem Tracks.withdraws (ht : Tracks l os fs) : ∀ c ∈ l.calls, c.retired ≠ [] → c.op.withdraws = true := by
  intro c hc hne
  rcases List.mem_append.mp hc with hc | hc
  · exact ht.fits.withdraws c hc hne
  · obtain ⟨e, he, rfl⟩ := List.mem_map.mp hc
    exact (ht.reports e he).withdraws hne

/-! ## Every turn -/

/-- Nothing is told. -/
theorem Tracks.same (ht : Tracks l os fs) (hp : Fits l.pending p) : Tracks l (os ++ []) p := by
  rw [List.append_nil]
  exact ⟨hp, ht.reports, ht.settings, ht.withdrawals⟩

/-- A call starts, and may do something at once. -/
theorem Tracks.begins (ht : Tracks l os fs) (l' : Log α) (hpending : l'.pending = ⟨op, hs⟩ :: l.pending) (hended : l'.ended = l.ended)
    (hbelow : fs.head?.any Frame.isLoop = false) (hserves : Serves op hs f) (ns : List (Occurrence α))
    (hsets : ∀ h, (if op.sets h then 1 else 0) = (deeds ns h).count .modified)
    (hretired : ∀ h, hs.count h = (deeds ns h).count .unregistering) : Tracks l' (os ++ ns) (f :: fs) := by
  refine ⟨?_, ?_, fun h => ?_, fun h => ?_⟩
  · rw [hpending]
    exact .one hserves hbelow ht.fits
  · rw [hended]
    exact ht.reports
  · have hbefore := ht.settings h
    rw [Log.settings] at hbefore
    rw [deeds_append, List.count_append, ← hbefore, ← hsets, Log.settings, hpending, hended, List.countP_cons]
    show _ + (if op.sets h = true then 1 else 0) + _ = _
    omega
  · rw [deeds_append, List.count_append, ← ht.withdrawals, ← hretired, Log.withdrawals, Log.calls, hpending, hended]
    show ((hs ++ l.calls.flatMap (·.retired)) : List Handle).count h = _
    rw [List.count_append, Nat.add_comm]
    rfl

/-- A call is over at once. -/
theorem Tracks.declines (ht : Tracks l os fs) (hpending : l'.pending = l.pending)
    (hended : l'.ended = l.ended ++ [(⟨op, []⟩, reply)]) (hdeclines : Declines op reply) (hns : ∀ h, deeds ns h = []) :
    Tracks l' (os ++ ns) fs := by
  refine ⟨?_, fun e he => ?_, fun h => ?_, fun h => ?_⟩
  · rw [hpending]
    exact ht.fits
  · rw [hended] at he
    rcases List.mem_append.mp he with he | he
    · exact ht.reports e he
    · obtain rfl := List.mem_singleton.mp he
      exact hdeclines.1
  · have hnot : (op.sets h && reply.isTrue) = false := by
      cases op with
      | setProperties t p =>
        have hreply := hdeclines.2 t p rfl
        cases reply with
        | flag b => cases b <;> simp_all [Reply.isTrue]
        | _ => simp [Reply.isTrue]
      | _ => rfl
    rw [deeds_append, hns, List.append_nil, ← ht.settings, Log.settings, hpending, hended, List.countP_append,
      List.countP_singleton, hnot]
    rfl
  · rw [deeds_append, hns, List.append_nil, ← ht.withdrawals, Log.withdrawals, Log.calls, hpending, hended, List.map_append,
      ← List.append_assoc, List.flatMap_append]
    exact congrArg (List.count h) (List.append_nil _)

/-- The innermost call withdraws something more. -/
theorem Tracks.retires {c : Call α} (ht : Tracks l os fs) (hcalls : l.pending = c :: cs)
    (hpending : l'.pending = ⟨c.op, c.retired ++ [h]⟩ :: cs) (hended : l'.ended = l.ended) (ns : List (Occurrence α))
    (hp : Fits (⟨c.op, c.retired ++ [h]⟩ :: cs) p) (hns : ∀ t, deeds ns t = if h == t then [.unregistering] else []) :
    Tracks l' (os ++ ns) p := by
  refine ⟨?_, ?_, fun t => ?_, fun t => ?_⟩
  · rw [hpending]
    exact hp
  · rw [hended]
    exact ht.reports
  · have hbefore := ht.settings t
    rw [Log.settings, hcalls, List.countP_cons] at hbefore
    have hcount : (deeds ns t).count .modified = 0 := by
      rw [hns]
      split <;> rfl
    rw [deeds_append, List.count_append, hcount, ← hbefore, Log.settings, hpending, hended, List.countP_cons]
    rfl
  · have hbefore := ht.withdrawals t
    rw [Log.withdrawals, Log.calls, hcalls] at hbefore
    have hcount : (deeds ns t).count .unregistering = if h == t then 1 else 0 := by
      rw [hns]
      split <;> rfl
    rw [deeds_append, List.count_append, hcount, ← hbefore, Log.withdrawals, Log.calls, hpending, hended]
    simp only [List.cons_append, List.flatMap_cons, List.count_append, List.count_singleton]
    omega

/-- The innermost call is over. -/
theorem Tracks.ends {c : Call α} (ht : Tracks l os fs) (hcalls : l.pending = c :: cs) (hpending : l'.pending = cs)
    (hended : l'.ended = l.ended ++ [(c, reply)]) (hp : Fits cs p) (hreports : Reports c.op c.retired reply)
    (hsets : ∀ h q, c.op = .setProperties h q → reply = .flag true) (ns : List (Occurrence α))
    (hns : ∀ h, deeds ns h = []) : Tracks l' (os ++ ns) p := by
  refine ⟨?_, fun e he => ?_, fun h => ?_, fun h => ?_⟩
  · rw [hpending]
    exact hp
  · rw [hended] at he
    rcases List.mem_append.mp he with he | he
    · exact ht.reports e he
    · obtain rfl := List.mem_singleton.mp he
      exact hreports
  · have htrue : (c.op.sets h && reply.isTrue) = c.op.sets h := by
      cases hop : c.op with
      | setProperties t q =>
        rw [hsets t q hop]
        exact Bool.and_true _
      | _ => rfl
    have hbefore := ht.settings h
    rw [Log.settings, hcalls, List.countP_cons] at hbefore
    rw [deeds_append, hns, List.append_nil, ← hbefore, Log.settings, hpending, hended, List.countP_append,
      List.countP_singleton, htrue]
    omega
  · have hbefore := ht.withdrawals h
    rw [Log.withdrawals, Log.calls, hcalls] at hbefore
    rw [deeds_append, hns, List.append_nil, ← hbefore, Log.withdrawals, Log.calls, hpending, hended]
    simp only [List.map_append, List.map_cons, List.map_nil, List.cons_append, List.flatMap_append, List.flatMap_cons,
      List.flatMap_nil, List.count_append, List.count_nil]
    omega

/-- A call does something and is over at once. -/
theorem Tracks.passes (ht : Tracks l os fs) (l' : Log α) (hpending : l'.pending = l.pending)
    (hended : l'.ended = l.ended ++ [(⟨op, []⟩, reply)]) (hbelow : fs.head?.any Frame.isLoop = false) {f : Frame α}
    (hserves : Serves op [] f) (hop : op.withdraws = false) (hreply : ∀ h q, op = .setProperties h q → reply = .flag true)
    (ns : List (Occurrence α)) (hsets : ∀ h, (if op.sets h then 1 else 0) = (deeds ns h).count .modified)
    (hretired : ∀ h, 0 = (deeds ns h).count .unregistering) : Tracks l' (os ++ ns) fs := by
  -- Between its start and its end the call would be in flight.
  have hbegun := ht.begins { l with pending := ⟨op, []⟩ :: l.pending } rfl rfl hbelow hserves ns hsets hretired
  have hover := hbegun.ends rfl hpending hended ht.fits (.other hop) hreply [] fun h => rfl
  rwa [List.append_nil] at hover

namespace World

variable {w v : World α} {top : Option (Frame α)} {out : Outcome α}

theorem deeds_asks (f : Frame α) (h : Handle) : deeds f.asks h = [] := by
  refine List.filterMap_eq_nil_iff.mpr fun o ho => ?_
  obtain ⟨q, -, rfl⟩ := List.mem_map.mp ho
  rfl

theorem deeds_announced (hasSink : Bool) (f : Frame α) (reply : Reply α) (h : Handle) :
    deeds (announced hasSink f reply).1 h = [] := by
  cases hasSink with
  | true => exact deeds_asks f h
  | false => rfl

/-- A call that sweeps goes on with one more withdrawn. -/
theorem serves_swept {c : Call α} {r n : Nat} {snapshot rest : List Handle}
    (hserves : Serves c.op c.retired (.unregistering r snapshot (h :: rest) n)) :
    c.op.tells = false ∧ Serves c.op (c.retired ++ [h]) (.unregistering r snapshot rest (n + 1)) := by
  obtain ⟨op, hs⟩ := c
  dsimp only at hserves ⊢
  cases hserves
  refine ⟨rfl, ?_⟩
  have hlength : hs.length + 1 = (hs ++ [h]).length := by rw [List.length_append, List.length_singleton]
  rw [hlength]
  exact .sweeping

theorem pending_asks (l : Log α) (f : Frame α) : (l.read f.asks).pending = l.pending ∧ (l.read f.asks).ended = l.ended := by
  have hrecord : ∀ q, (l.record (.asked q)).pending = l.pending ∧ (l.record (.asked q)).ended = l.ended := by
    intro q
    cases q with
    | event r kind h old =>
      rw [Log.record]
      split <;> exact ⟨rfl, rfl⟩
    | _ => exact ⟨rfl, rfl⟩
  rw [Frame.asks]
  cases f.question? with
  | none => exact ⟨rfl, rfl⟩
  | some q => exact hrecord q

/-- A call does something, and either the sink is being told of it or the call is over. -/
theorem tracks_announced (hl : Tracks l os fs) (hbelow : fs.head?.any Frame.isLoop = false) (hserves : Serves op [] f)
    (hop : op.withdraws = false) (ns : List (Occurrence α)) (l' : Log α) (hreply : ∀ h q, op = .setProperties h q → reply = .flag true)
    (hpending : l'.pending = ⟨op, []⟩ :: l.pending) (hended : l'.ended = l.ended)
    (hsets : ∀ h, (if op.sets h then 1 else 0) = (deeds ns h).count .modified)
    (hretired : ∀ h, 0 = (deeds ns h).count .unregistering) (hasSink : Bool) :
    Tracks (l'.read (announced hasSink f reply).1) (os ++ (ns ++ (announced hasSink f reply).1))
      ((announced hasSink f reply).2 ++ fs) := by
  have hdeeds : ∀ h, deeds (ns ++ (announced hasSink f reply).1) h = deeds ns h := by
    intro h
    rw [deeds_append, deeds_announced, List.append_nil]
  simp only [← hdeeds] at hsets hretired
  cases hasSink with
  | true =>
    obtain ⟨hpending', hended'⟩ := pending_asks l' f
    exact hl.begins _ (hpending'.trans hpending) (hended'.trans hended) hbelow hserves _ hsets hretired
  | false =>
    have hread : l'.read [.returned reply] = { l' with pending := l.pending, ended := l'.ended ++ [(⟨op, []⟩, reply)] } := by
      rw [Log.read, List.foldl_cons, List.foldl_nil, Log.record, hpending]
    show Tracks (l'.read [.returned reply]) _ _
    rw [hread]
    refine hl.passes _ ?_ ?_ hbelow hserves hop hreply _ hsets hretired
    · rfl
    · exact congrArg (· ++ [(⟨op, []⟩, reply)]) hended

/-- The calls that a turn starts, goes on with or ends are tracked. -/
theorem tracks_turn (ht : Turn v top ns p) (hl : Tracks l os (top.toList ++ v.stack))
    (hbelow : top = none → v.stack.head?.any Frame.isLoop = false) : Tracks (l.read ns) (os ++ ns) (p ++ v.stack) := by
  cases ht with
  | holds => exact hl.same hl.fits
  | declines hdeclines => exact hl.declines rfl rfl hdeclines fun h => rfl
  | @starts r op f hserves hset =>
    have hsets := Operation.sets_of_not hset
    exact hl.begins (l.record (.called r op)) rfl rfl (hbelow rfl) hserves [.called r op] (fun h => by rw [hsets]; rfl) fun h => rfl
  | @publishes r g b name source q e hg he =>
    rw [he]
    refine tracks_announced hl (hbelow rfl) .announcing rfl
      [.called r (.register b name source q), .published r v.registrations.size] (l.record (.called r _)) (by simp) rfl rfl
      (fun t => ?_) (fun t => ?_) g.hasSink
    · rw [deeds_cons, deeds_cons]
      simp only [Operation.sets, Occurrence.deed?]
      cases v.registrations.size == t <;> rfl
    · rw [deeds_cons, deeds_cons]
      simp only [Occurrence.deed?]
      cases v.registrations.size == t <;> rfl
  | @replaces r g h q x e hg hx hindexed he =>
    rw [he]
    refine tracks_announced hl (hbelow rfl) .setting rfl [.called r (.setProperties h q), .replaced r h x.properties]
      (l.record (.called r _)) (fun _ _ _ => rfl) rfl rfl (fun t => ?_) (fun t => ?_) g.hasSink
    · rw [deeds_cons, deeds_cons]
      by_cases ht : h = t <;> simp [Operation.sets, Occurrence.deed?, deeds, ht]
    · rw [deeds_cons, deeds_cons]
      simp only [Occurrence.deed?]
      cases h == t <;> rfl
  | @tells r g h old e hg he =>
    rw [he]
    exact tracks_announced hl (hbelow rfl) .telling rfl [.called r (.modified h old)] (l.record (.called r _)) (by simp)
      rfl rfl (fun t => rfl) (fun t => rfl) g.hasSink
  | @withdraws r g b h hg =>
    obtain ⟨hpending, hended⟩ := pending_asks (l.read [.called r (.unregister b h), .retired r h]) (leaving g r h)
    have hserves : Serves (.unregister b h) [h] (leaving g r h) := by
      unfold leaving
      split
      · exact .withdrawing
      · exact .draining
    have hdeeds : ∀ t, deeds (.called r (.unregister b h) :: .retired r h :: (leaving g r h).asks) t =
        if h == t then [.unregistering] else [] := by
      intro t
      rw [deeds_cons, deeds_cons, deeds_asks]
      simp only [Occurrence.deed?]
      split <;> rfl
    refine hl.begins _ hpending hended (hbelow rfl) hserves _ (fun t => ?_) fun t => ?_
    · rw [hdeeds]
      cases h == t <;> rfl
    · rw [hdeeds]
      show [h].count t = _
      rw [List.count_singleton]
      cases h == t <;> rfl
  | @sweeps r g snapshot rest h n hg =>
    -- The sweep below tells which call withdraws `h`.
    obtain ⟨c, cs, hc, hserves, hbelow', hrest⟩ := hl.fits.loop rfl
    obtain ⟨-, hserves'⟩ := serves_swept hserves
    have hleaving : (leaving g r h).isLoop = false := by
      unfold leaving
      split <;> rfl
    obtain ⟨hpending, hended⟩ := pending_asks (l.record (.retired r h)) (leaving g r h)
    refine hl.retires hc (hpending.trans ?_) hended _ (.part hserves' hleaving rfl hbelow' hrest) fun t => ?_
    · rw [Log.record, hc]
      rfl
    · rw [deeds_cons, deeds_asks]
      simp only [Occurrence.deed?]
      split <;> rfl
  | goesOn hserves hloop => exact hl.same (hl.fits.replace hserves hloop)
  | hands hk =>
    obtain ⟨⟨op, hs⟩, cs, hc, hserves, hbelow, hrest⟩ := hl.fits.loop rfl
    refine hl.same ?_
    rw [hc]
    dsimp only at hserves
    cases hserves
    exact .part .ungetting hk rfl hbelow hrest
  | @ends f reply hconcludes =>
    -- The end of a part of a sweep is the end of no call.
    unfold said
    split
    · rename_i hpart
      exact hl.same (hl.fits.partOver hpart)
    · rename_i hpart
      obtain ⟨c, cs, hc, hserves, hrest⟩ := hl.fits.top (Bool.eq_false_iff.mpr hpart)
      obtain ⟨hreports, hsets⟩ := hconcludes c.op c.retired hserves
      refine hl.ends hc ?_ ?_ hrest hreports hsets [.returned reply] fun h => rfl
      · rw [Log.read, List.foldl_cons, Log.record, hc]
        rfl
      · rw [Log.read, List.foldl_cons, Log.record, hc]
        rfl

theorem events_returned (l : Log α) (reply : Reply α) : (l.record (.returned reply)).events = l.events := by
  rw [Log.record]
  split <;> rfl

/-- What a turn does is told to the sink, where there is one. -/
theorem events_turn (ht : Turn v top ns p) (hfits : Fits l.pending (top.toList ++ v.stack))
    (hsink : ∀ (r : Nat) (g : Registry α), v.registries[r]? = some g → g.hasSink = true) (h : Handle) :
    about (l.read ns).events h = about l.events h ++ deeds ns h := by
  have hone : ∀ (l' : Log α) (t : Handle) (kind : EventKind), l'.events = l.events ++ [(t, kind)] →
      about l'.events h = about l.events h ++ (if t == h then some kind else none).toList := by
    intro l' t kind hl
    rw [hl, about_append, about_singleton]
    cases t == h <;> rfl
  cases ht with
  | holds => exact (List.append_nil _).symm
  | declines => exact (List.append_nil _).symm
  | starts => exact (List.append_nil _).symm
  | @publishes r g b name source q e hg he =>
    rw [announced, if_pos (hsink r g hg)] at he
    rw [he, deeds_cons, deeds_cons, deeds_asks, List.append_nil]
    exact hone _ v.registrations.size .registered rfl
  | @replaces r g t q x e hg hx hindexed he =>
    rw [announced, if_pos (hsink r g hg)] at he
    rw [he, deeds_cons, deeds_cons, deeds_asks, List.append_nil]
    exact hone _ t .modified rfl
  | @tells r g t old e hg he =>
    rw [announced, if_pos (hsink r g hg)] at he
    rw [he, deeds_cons, deeds_asks]
    exact (List.append_nil _).symm
  | @withdraws r g b t hg =>
    rw [leaving, if_pos (hsink r g hg), deeds_cons, deeds_cons, deeds_asks, List.append_nil]
    exact hone _ t .unregistering rfl
  | @sweeps r g snapshot rest t n hg =>
    obtain ⟨c, cs, hc, hserves, -, -⟩ := hfits.loop rfl
    obtain ⟨htells, -⟩ := serves_swept hserves
    rw [leaving, if_pos (hsink r g hg), deeds_cons, deeds_asks, List.append_nil]
    refine hone _ t .unregistering ?_
    show (Log.record (Log.record l (.retired r t)) (.asked (.event r .unregistering t none))).events = _
    simp only [Log.record, hc, List.modifyHead_cons, List.head?_cons, Option.any_some, htells]
    rfl
  | goesOn => exact (List.append_nil _).symm
  | hands => exact (List.append_nil _).symm
  | @ends f reply hconcludes =>
    unfold said
    split
    · exact (List.append_nil _).symm
    · rw [show l.read [.returned reply] = l.record (.returned reply) from rfl, events_returned]
      exact (List.append_nil _).symm

/-- What a log reads of a move is its news. -/
theorem logOf_append (os os' : List (Occurrence α)) : logOf (os ++ os') = (logOf os).read (news os') := by
  rw [Log.read_news]
  exact Log.read_append ..

/-- Every move is tracked. -/
theorem tracks_play {m : Move α} (hl : Tracks (logOf os) os w.stack) (hplay : w.play m = some out) :
    Tracks (logOf (os ++ out.2)) (os ++ out.2) out.1.stack := by
  obtain ⟨v, top, rfl, hturn, htakes⟩ := takes_of_play hplay
  obtain ⟨p, ht, hstack⟩ := htakes.turn
  have hnext := tracks_turn ht hl fun htop => by
    subst htop
    exact not_loop_of_turn (hturn rfl)
  have hdeeds : ∀ h, deeds (os ++ news out.2) h = deeds (os ++ out.2) h := by
    intro h
    rw [deeds_append, deeds_append, deeds_news]
  rw [logOf_append, hstack]
  refine ⟨hnext.fits, hnext.reports, fun h => ?_, fun h => ?_⟩
  · rw [← hdeeds]
    exact hnext.settings h
  · rw [← hdeeds]
    exact hnext.withdrawals h

theorem tracks_start (setups : List (Config × Bool)) :
    Tracks (logOf ([] : List (Occurrence α))) [] (start setups : World α).stack :=
  ⟨.nil, fun e he => (by cases he), fun h => rfl, fun h => rfl⟩

/-- In every run the log tracks the calls. -/
theorem tracks_run {setups : List (Config × Bool)} {ms : List (Move α)} (hrun : (start setups).run ms = some out) :
    Tracks (logOf out.2) out.2 out.1.stack :=
  run_induction (P := fun w os => Tracks (logOf os) os w.stack) (fun _ _ _ _ => tracks_play) ms (start setups) [] out
    (tracks_start setups) hrun

/-- A move is logged, where every registry has a sink. -/
theorem logs_play {m : Move α} (hl : Logs (logOf os) os w.stack)
    (hsink : ∀ (r : Nat) (g : Registry α), w.registries[r]? = some g → g.hasSink = true) (hplay : w.play m = some out) :
    Logs (logOf (os ++ out.2)) (os ++ out.2) out.1.stack := by
  have htracks := tracks_play hl.tracks hplay
  refine ⟨htracks.fits, htracks.reports, fun h => ?_, htracks.settings, htracks.withdrawals⟩
  obtain ⟨v, top, rfl, -, htakes⟩ := takes_of_play hplay
  obtain ⟨p, ht, -⟩ := htakes.turn
  rw [logOf_append, events_turn ht hl.fits hsink h, hl.events, deeds_news, deeds_append]

end World

end Switchboard
