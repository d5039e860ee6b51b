import TagFormat.Proofs.InsertionMap.Mapped
import TagFormat.Proofs.Registry.Threads

/-! # Counting calls

The readers are run here with a counter of the calls for tags and for texts that are tags of their
own, along the accounts of where they call for the level below (`Thread.callTag`,
`Thread.callInto`). A result tells what has been counted: one for each tag in it and one for each
text that is a tag of its own (`Tag.calls`), since each part of a payload that calls for the level
below tallies with what it adds (`Thread.Tallies`). -/

namespace TagFormat

open Reading

variable {α β : Type}

/-! ### What there is to count -/

/-- The number of tags in a tag, itself included and at every depth, and of texts that are tags of
their own. -/
def Tag.calls (t : Tag) : Nat :=
  t.fold fun t ns => 1 + (ns.sum + t.payload.strings.length)

/-- The number of tags in a payload, at every depth, and of texts that are tags of their own. -/
def Payload.calls (p : Payload) : Nat :=
  (p.children.map Tag.calls).sum + p.strings.length

theorem Tag.calls_mk (id : UInt64) (p : Payload) : (mk id p).calls = 1 + p.calls := by
  rw [calls, fold_eq]
  rfl

/-! ### Programs that hold nothing -/

namespace Reading

/-- The program comes only to results with the property. -/
def Only (p : Reading α) (property : α → Prop) : Prop :=
  ∀ stops s a, (p.run stops s).1 = .ok a → property a

variable {p : Reading β} {property : α → Prop}

theorem only_done {a : α} (h : property a) : (done a).Only property :=
  fun _ _ _ ha => Except.ok.inj ha ▸ h

theorem Only.after {f : β → Reading α} (h : ∀ b, (f b).Only property) :
    (p.bind f).Only property := by
  intro stops s a ha
  rw [run_bind] at ha
  rcases hp : p.run stops s with ⟨error | b, t⟩
  · rw [hp] at ha
    cases ha
  · rw [hp] at ha
    exact h b stops t a ha

theorem Only.framed {what : String} {minimum : Nat} {declared : Declared} {body : Nat → Reading α}
    (h : ∀ size, (body size).Only property) :
    (Reading.framed what minimum declared body).Only property :=
  .after fun size stops s a ha => by
    rw [run_exactly] at ha
    exact h size _ _ a (congrArg Prod.fst (leave_eq_ok_iff.mp (Prod.ext ha rfl)).1)

end Reading

/-! ### Counting -/

namespace Thread

/-- A call begins. -/
def begun (act : Thread α) : Thread α := fun stops calls s =>
  act stops (calls + 1) s

section Calls

variable (r : Registry)

/-- Reads text in a tag of its own, and counts the call. -/
def callString (depth : Nat) : Thread String :=
  begun (plain (r.readString depth))

/-- Reads a tag with `depth` levels left, and counts the call and those that it makes. -/
def callTag : (depth : Nat) → Thread Tag
  | 0 => begun (plain r.refuseDepth)
  | depth + 1 => begun (r.levelCalls.onThread (callTag depth) (callString r depth))

/-- Reads a tag of the id and the kind that `target` has, and counts the call and those that it
makes. -/
def callInto (target : Tag) : (depth : Nat) → Thread Tag
  | 0 => begun (plain r.refuseDepth)
  | depth + 1 => begun (((Calls.none (Registry.expectId target.id)).bind fun _ =>
      r.bodyCalls target.id target.payload.kind).onThread (callTag r depth) (callString r depth))

end Calls

/-- With a result, as many calls have been counted as it weighs more than `before`. -/
def Tallies (act : Thread α) (before : Nat) (weight : α → Nat) : Prop :=
  ∀ stops calls s a calls' t, act stops calls s = (.ok a, calls', t) →
    calls' + before = calls + weight a

variable {act : Thread α} {before : Nat} {weight : α → Nat}

theorem tallies_plain {p : Reading α}
    (h : ∀ stops s a, (p.run stops s).1 = .ok a → weight a = before) :
    (plain p).Tallies before weight := by
  intro stops calls s a calls' t hact
  obtain ⟨ha, hact⟩ := Prod.mk.inj hact
  obtain ⟨rfl, -⟩ := Prod.mk.inj hact
  rw [h stops s a ha]

/-- A program that counts nothing, whatever has been counted before. -/
theorem tallies_idle (p : Reading α) (before : Nat) : (plain p).Tallies before fun _ => before :=
  tallies_plain fun _ _ _ _ => rfl

theorem tallies_done {a : α} (h : weight a = before) : (plain (.done a)).Tallies before weight :=
  tallies_plain fun _ _ _ ha => Except.ok.inj ha ▸ h

theorem tallies_fail (error : TagError) : (plain (.fail error)).Tallies before weight :=
  tallies_plain fun _ _ _ ha => nomatch ha

theorem Tallies.shift (h : act.Tallies 0 weight) (before : Nat) :
    act.Tallies before fun a => before + weight a := by
  intro stops calls s a calls' t hact
  have := h stops calls s a calls' t hact
  change calls' + before = calls + (before + weight a)
  omega

theorem Tallies.bind {next : α → Thread β} {weight' : β → Nat} (h : act.Tallies before weight)
    (hn : ∀ a, (next a).Tallies (weight a) weight') : (act.bind next).Tallies before weight' := by
  intro stops calls s b calls' t hact
  rw [Thread.bind] at hact
  rcases hfirst : act stops calls s with ⟨error | a, m, u⟩
  · rw [hfirst] at hact
    cases hact
  · rw [hfirst] at hact
    have hm := h stops calls s a m u hfirst
    have hn := hn a stops m u b calls' t hact
    omega

/-- After a program that counts nothing. -/
theorem Tallies.after {p : Reading β} {next : β → Thread α}
    (h : ∀ b, (next b).Tallies before weight) : ((plain p).bind next).Tallies before weight :=
  (tallies_idle p before).bind h

theorem Tallies.room {next : Option Nat → Thread α} (h : ∀ left, (next left).Tallies before weight) :
    (room next).Tallies before weight :=
  fun stops calls s => h _ stops calls s

theorem Tallies.exactly (h : act.Tallies before weight) (what : String) (size : Nat) :
    (exactly what size act).Tallies before weight := by
  intro stops calls s a calls' t hact
  rw [Thread.exactly] at hact
  rcases hbody : act ((s.pos + size) :: stops) calls s with ⟨o, m, u⟩
  rw [hbody] at hact
  obtain ⟨hleave, hact⟩ := Prod.mk.inj hact
  obtain ⟨rfl, -⟩ := Prod.mk.inj hact
  obtain ⟨ho, -⟩ := leave_eq_ok_iff.mp (Prod.ext hleave rfl)
  exact h _ calls s a m u (by rw [hbody, (Prod.mk.inj ho).1])

theorem Tallies.begun (h : act.Tallies before weight) :
    (begun act).Tallies before fun a => 1 + weight a := by
  intro stops calls s a calls' t hact
  have := h stops (calls + 1) s a calls' t hact
  change calls' + before = calls + (1 + weight a)
  omega

end Thread

/-! ### Where readers call for the level below -/

namespace Calls

open Thread

/-- What runs along an account tallies, if tags tally that are called for, and texts as one. -/
def Tally {f : Inner → Reading α} (h : Calls f) (before : Nat) (weight : α → Nat) : Prop :=
  ∀ (tag : Thread Tag) (string : Thread String), tag.Tallies 0 Tag.calls →
    string.Tallies 0 (fun _ => 1) → (h.onThread tag string).Tallies before weight

variable {f g : Inner → Reading α} {h : Calls f} {before : Nat} {weight : α → Nat}

theorem tally_tag : Calls.tag.Tally 0 Tag.calls :=
  fun _ _ ht _ => ht

theorem tally_string : Calls.string.Tally 0 fun _ => 1 :=
  fun _ _ _ hs => hs

theorem tally_done {a : α} (ha : weight a = before) : (Calls.none (.done a)).Tally before weight :=
  fun _ _ _ _ => tallies_done ha

theorem tally_fail (error : TagError) : (Calls.none (.fail error)).Tally before weight :=
  fun _ _ _ _ => tallies_fail error

theorem Tally.shift (hf : h.Tally 0 weight) (before : Nat) :
    h.Tally before fun a => before + weight a :=
  fun tag string ht hs => (hf tag string ht hs).shift before

theorem Tally.bind {γ : α → Inner → Reading β} {next : ∀ a, Calls (γ a)} {weight' : β → Nat}
    (hf : h.Tally before weight) (hn : ∀ a, (next a).Tally (weight a) weight') :
    (h.bind next).Tally before weight' :=
  fun tag string ht hs => (hf tag string ht hs).bind fun a => hn a tag string ht hs

/-- After a program that calls for nothing. -/
theorem Tally.after {p : Reading β} {γ : β → Inner → Reading α} {next : ∀ b, Calls (γ b)}
    (hn : ∀ b, (next b).Tally before weight) : ((Calls.none p).bind next).Tally before weight :=
  fun tag string ht hs => .after fun b => hn b tag string ht hs

theorem Tally.map {change : α → β} {weight' : β → Nat} (hf : h.Tally before weight)
    (hc : ∀ a, weight' (change a) = weight a) : (h.map change).Tally before weight' :=
  hf.bind fun a => tally_done (hc a)

theorem Tally.ite {c : Prop} {no : Calls g} : [_inst : Decidable c] →
    (c → h.Tally before weight) → (¬c → no.Tally before weight) →
      (Calls.ite (c := c) h no).Tally before weight
  | .isTrue hc, hyes, _ => hyes hc
  | .isFalse hc, _, hno => hno hc

theorem Tally.exactly (hf : h.Tally before weight) (what : String) (size : Nat) :
    (h.exactly what size).Tally before weight :=
  fun tag string ht hs => (hf tag string ht hs).exactly what size

theorem Tally.framed {what : String} {minimum : Nat} {declared : Declared}
    {γ : Nat → Inner → Reading α} {body : ∀ size, Calls (γ size)}
    (hb : ∀ size, (body size).Tally before weight) :
    (Calls.framed what minimum declared body).Tally before weight :=
  .after fun size => (hb size).exactly what size

/-! ### Items and entries -/

theorem Tally.timesFrom (hf : h.Tally 0 weight) : ∀ (count : Nat) (read : List α),
    (h.timesFrom count read).Tally (read.map weight).sum fun l => (l.map weight).sum
  | 0, read => tally_done (by rw [List.map_reverse, List.sum_reverse])
  | count + 1, read => (hf.shift _).bind fun a => by
    rw [Nat.add_comm]
    exact hf.timesFrom count (a :: read)

theorem Tally.untilEndFrom (hf : h.Tally 0 weight) : ∀ (most : Nat) (read : List α),
    (h.untilEndFrom most read).Tally (read.map weight).sum fun l => (l.map weight).sum
  | 0, read => tally_done (by rw [List.map_reverse, List.sum_reverse])
  | most + 1, read => by
    have hend : (Calls.none (.done read.reverse)).Tally (read.map weight).sum
        fun l => (l.map weight).sum := tally_done (by rw [List.map_reverse, List.sum_reverse])
    have hmore : (h.bind fun a => h.untilEndFrom most (a :: read)).Tally (read.map weight).sum
        fun l => (l.map weight).sum := (hf.shift _).bind fun a => by
      rw [Nat.add_comm]
      exact hf.untilEndFrom most (a :: read)
    intro tag string ht hs
    refine Tallies.room fun left => ?_
    rcases left with _ | _ | left
    · exact hmore tag string ht hs
    · exact hend tag string ht hs
    · exact hmore tag string ht hs

theorem Tally.counted (hf : h.Tally 0 weight) (what : String) (declared : Declared) :
    (h.counted what declared).Tally 0 fun l => (l.map weight).sum :=
  .framed fun _ => .after fun count => .after fun _ => hf.timesFrom count.toNat []

/-- Entries, of which each key is one. -/
theorem Tally.entriesInto {key : Inner → Reading String} {hk : Calls key} (what : String)
    (hkey : hk.Tally 0 fun _ => 1) (hf : h.Tally 0 weight) : ∀ (count : Nat)
    {l : List (String × α)}, (l.map Prod.fst).Nodup →
      (hk.entriesInto what h count (.ofList l)).Tally (l.map fun e => 1 + weight e.2).sum
        fun m => (m.toList.map fun e => 1 + weight e.2).sum
  | 0, l, hl => tally_done (by rw [InsertionMap.toList_ofList hl])
  | count + 1, l, hl => (hkey.shift _).bind fun k => (hf.shift _).bind fun v =>
    .ite (fun _ => tally_fail _) fun hnew => by
      have hsum : (l.map fun e => 1 + weight e.2).sum + 1 + weight v =
          ((l ++ [(k, v)]).map fun e => 1 + weight e.2).sum := by
        rw [List.map_append, List.sum_append, List.map_singleton, List.sum_singleton, Nat.add_assoc]
      rw [hsum, InsertionMap.insert_ofList]
      exact hkey.entriesInto what hf count (InsertionMap.nodup_keys_concat hl hnew v)

theorem Tally.entries {key : Inner → Reading String} {hk : Calls key} (what : String)
    (declared : Declared) (hkey : hk.Tally 0 fun _ => 1) (hf : h.Tally 0 weight) :
    (hk.entries what declared h).Tally 0 fun m => (m.toList.map fun e => 1 + weight e.2).sum :=
  .framed fun _ => .after fun count => .after fun _ =>
    hkey.entriesInto what hf count.toNat (l := []) List.nodup_nil

/-! ### Payloads and tags -/

theorem sum_entries (m : InsertionMap String α) (weight : α → Nat) :
    (m.toList.map fun e => 1 + weight e.2).sum = (m.values.map weight).sum + m.toList.length := by
  rw [InsertionMap.values, List.map_map]
  induction m.toList with
  | nil => rfl
  | cons e l ih =>
    rw [List.map_cons, List.sum_cons, ih, List.map_cons, List.sum_cons, List.length_cons,
      Function.comp_apply]
    omega

/-- Payloads that hold neither tags nor texts in tags of their own. -/
theorem tally_leaf {p : Reading Payload} (hp : p.Only fun payload => payload.calls = 0) :
    (Calls.none p).Tally 0 Payload.calls :=
  fun _ _ _ _ => tallies_plain hp

theorem tally_standard (declared : Declared) (type : Standard) :
    (type.calls declared).Tally 0 Payload.calls := by
  cases type
  case tagArray => exact (tally_tag.counted "tag array" declared).map fun _ => rfl
  case tagSequence =>
    exact (Tally.framed fun size => tally_tag.untilEndFrom size []).map fun _ => rfl
  case dictionary =>
    refine (tally_string.entries "dictionary" declared tally_tag).map fun m => ?_
    rw [sum_entries, Payload.calls, Payload.strings, InsertionMap.keys, List.length_map]
    rfl
  case stringDictionary =>
    refine (tally_string.entries "string dictionary" declared tally_string).map fun m => ?_
    rw [Payload.calls, Payload.strings, List.length_flatMap]
    exact Nat.zero_add _
  case bytes | string | bigInt => exact tally_leaf (.after fun _ => .after fun _ => only_done rfl)
  case bigDecimal => exact tally_leaf (.framed fun _ => .after fun _ => .after fun _ => only_done rfl)
  case range => exact tally_leaf (.framed fun _ => .after fun _ => .after fun _ => only_done rfl)
  case version =>
    exact tally_leaf (.after fun _ => .after fun _ => .after fun _ => .after fun _ => .after fun _ =>
      only_done rfl)
  all_goals exact tally_leaf (.after fun _ => only_done rfl)

/-- A versioned payload weighs what its body does. -/
theorem tally_versioned {b : Body α} {hb : ∀ version, Calls fun inner => b.read version inner}
    (h : ∀ version, (hb version).Tally 0 weight) (declared : Declared) :
    (b.calls hb declared).Tally 0 fun v => weight v.inner := by
  have hmap : ∀ version, ((hb version).map (Versioned.mk version)).Tally 0 fun v => weight v.inner :=
    fun version => (h version).map fun _ => rfl
  exact .after fun size => .exactly (.after fun version =>
    .ite (fun _ => hmap version) fun _ => tally_fail _) _ size

/-- What a codec reads in the frame weighs as much outside of it. -/
theorem tally_value {c : Codec α} {hc : ∀ declared, Calls fun inner => c.read inner declared}
    (h : ∀ declared, (hc declared).Tally 0 weight) (declared : Declared) :
    (c.calls hc declared).Tally 0 weight :=
  .after fun size => (h (.exact size)).exactly c.name size

theorem tally_kind (declared : Declared) (kind : Kind) :
    (kind.calls declared).Tally 0 Payload.calls := by
  cases kind with
  | standard type => exact tally_standard declared type
  | document =>
    exact (tally_versioned (fun _ => tally_tag) declared).map fun _ => List.sum_singleton
  | nested id => exact (tally_value (fun _ => tally_tag) declared).map fun _ => List.sum_singleton
  | point | coordinates | fixed | text => exact tally_leaf (.after fun _ => only_done rfl)

theorem tally_body (r : Registry) (id : UInt64) (kind : Kind) :
    (r.bodyCalls id kind).Tally 0 fun t => t.payload.calls :=
  .after fun declared => (tally_kind declared kind).map fun _ => rfl

end Calls

namespace Thread

variable (r : Registry)

theorem tallies_callString (depth : Nat) : (callString r depth).Tallies 0 fun _ => 1 :=
  (tallies_idle _ 0).begun

/-- A call for a tag is one more than what its payload adds. -/
theorem tallies_call {act : Thread Tag} (h : act.Tallies 0 fun t => t.payload.calls) :
    (begun act).Tallies 0 Tag.calls := by
  have hcalls : Tag.calls = fun t => 1 + t.payload.calls := by
    funext t
    cases t
    exact Tag.calls_mk _ _
  rw [hcalls]
  exact h.begun

/-- **All calls for tags are counted**: a tag that is read tells how many there were. -/
theorem tallies_callTag : ∀ depth : Nat, (callTag r depth).Tallies 0 Tag.calls
  | 0 => tallies_call (tallies_fail _)
  | depth + 1 => tallies_call (.after fun id => .after fun kind =>
      Calls.tally_body r id kind _ _ (tallies_callTag depth) (tallies_callString r depth))

theorem tallies_callInto (target : Tag) (depth : Nat) :
    (callInto r target depth).Tallies 0 Tag.calls := by
  cases depth with
  | zero => exact tallies_call (tallies_fail _)
  | succ depth =>
    exact tallies_call (.after fun _ => Calls.tally_body r target.id target.payload.kind _ _
      (tallies_callTag r depth) (tallies_callString r depth))

end Thread

end TagFormat
