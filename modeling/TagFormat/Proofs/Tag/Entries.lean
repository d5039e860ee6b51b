import TagFormat.Proofs.Input.Readers

/-! # The entries of a map, one after the other

Where keys and values stand one after the other, with their number before them, all of them are
read if no key comes twice. Otherwise reading ends behind the first entry whose key came before,
with an error that tells the key (`Reader.entries_cases`), whoever reads the keys and the values
(`Reader.gives_entries`), and so with programs (`Reading.run_entries`). -/

namespace TagFormat

variable {α β : Type} {keyBytes : String → Bytes} {itemBytes : β → Bytes} {f : β → α}
  {what : String} {stops : List Nat} {rest : Bytes} {l : List (String × β)}

/-- The bytes of entries with their number before them. -/
def entryBytes (keyBytes : String → Bytes) (itemBytes : β → Bytes) (l : List (String × β)) :
    Bytes :=
  Varint.encode (UInt64.ofNat l.length) ++ l.flatMap fun e => keyBytes e.1 ++ itemBytes e.2

theorem length_entryBytes (keyBytes : String → Bytes) (itemBytes : β → Bytes)
    (l : List (String × β)) : (entryBytes keyBytes itemBytes l).length =
      Varint.encodedSize (UInt64.ofNat l.length) +
        (l.flatMap fun e => keyBytes e.1 ++ itemBytes e.2).length := by
  rw [entryBytes, List.length_append, Varint.length_encode]

/-! ### Readers of any make -/

namespace Reader

variable {key : Reader String} {item : Reader α}

/-- The key of each entry is given by its bytes, and by those of the value what `f` makes of it. -/
def GivesEach (key : Reader String) (item : Reader α) (keyBytes : String → Bytes)
    (itemBytes : β → Bytes) (f : β → α) (l : List (String × β)) : Prop :=
  ∀ e ∈ l, key.Gives (keyBytes e.1) e.1 ∧ item.Gives (itemBytes e.2) (f e.2)

/-- **Entries one by one**: either all keys are new when their turn comes, and the entries are added
to the map, or reading ends behind the first entry of which the key is there. -/
theorem entriesInto_cases (what : String) {l : List (String × β)} :
    ∀ {m : InsertionMap String α} {s : Source}, GivesEach key item keyBytes itemBytes f l →
      s.rest = (l.flatMap fun e => keyBytes e.1 ++ itemBytes e.2) ++ rest →
      (∀ stop ∈ stops,
        s.pos + (l.flatMap fun e => keyBytes e.1 ++ itemBytes e.2).length ≤ stop) →
      (m.Fresh (l.map fun e => (e.1, f e.2)) ∧
        entriesInto what key item l.length m stops s =
          (.ok (m.insertMany (l.map fun e => (e.1, f e.2))),
            s.advance (l.flatMap fun e => keyBytes e.1 ++ itemBytes e.2).length)) ∨
      ∃ before e after t, l = before ++ e :: after ∧ m.Fresh (before.map fun e => (e.1, f e.2)) ∧
        (m.insertMany (before.map fun e => (e.1, f e.2))).contains e.1 = true ∧
        entriesInto what key item l.length m stops s =
          (.error (.format (.duplicateKey what e.1)), t) := by
  induction l with
  | nil =>
    intro m s _ _ _
    exact .inl ⟨trivial, congrArg (_, ·) (Source.advance_zero s).symm⟩
  | cons e l ih =>
    intro m s hl hs hstops
    obtain ⟨⟨hkey, hvalue⟩, hl⟩ := List.forall_mem_cons.mp hl
    rw [List.flatMap_cons, List.append_assoc, List.append_assoc] at hs
    simp only [List.flatMap_cons, List.length_append] at hstops
    have hkey := hkey stops s _ hs fun stop h => by have := hstops stop h; omega
    have hrest := Source.rest_advance hs
    have hitem := hvalue stops _ _ hrest fun stop h => by
      have := hstops stop h
      rw [Source.advance_pos]
      omega
    have hrest := Source.rest_advance hrest
    rw [Source.advance_advance] at hitem hrest
    have hrun : entriesInto what key item (e :: l).length m stops s =
        (if m.contains e.1 then (Reading.fail (.format (.duplicateKey what e.1))).run
          else entriesInto what key item l.length (m.insert e.1 (f e.2))) stops
            (s.advance ((keyBytes e.1).length + (itemBytes e.2).length)) := by
      rw [List.length_cons, entriesInto, bind_of_ok hkey, bind_of_ok hitem]
    cases hc : m.contains e.1 with
    | true =>
      rw [hrun, hc]
      exact .inr ⟨[], e, l, _, rfl, trivial, hc, rfl⟩
    | false =>
      rw [hc, if_neg Bool.false_ne_true] at hrun
      have hfit : ∀ stop ∈ stops,
          (s.advance ((keyBytes e.1).length + (itemBytes e.2).length)).pos +
            (l.flatMap fun e => keyBytes e.1 ++ itemBytes e.2).length ≤ stop := fun stop h => by
        have := hstops stop h
        rw [Source.advance_pos]
        omega
      rw [hrun]
      rcases ih (m := m.insert e.1 (f e.2)) hl hrest hfit with
        ⟨hfresh, hok⟩ | ⟨before, d, after, t, rfl, hfresh, hd, herror⟩
      · refine .inl ⟨⟨hc, hfresh⟩, ?_⟩
        rw [hok, Source.advance_advance, List.flatMap_cons, List.length_append,
          List.length_append]
        rfl
      · exact .inr ⟨e :: before, d, after, t, rfl, ⟨hc, hfresh⟩, hd, herror⟩

/-- Reading a map comes to reading its entries one by one, in a frame that ends behind them. -/
theorem entries_eq {s : Source} (hpos : ∀ e ∈ l, 0 < (keyBytes e.1).length)
    (hsize : (entryBytes keyBytes itemBytes l).length < 2 ^ 64)
    (hs : s.rest = entryBytes keyBytes itemBytes l ++ rest) {stop : Nat}
    (hstop : s.pos + (entryBytes keyBytes itemBytes l).length = stop)
    (hstops : ∀ stop' ∈ stop :: stops, stop ≤ stop') :
    entries what (.exact (entryBytes keyBytes itemBytes l).length) key item stops s =
      Reading.leave what (entryBytes keyBytes itemBytes l).length stop
        (entriesInto what key item l.length ∅ (stop :: stops)
          (s.advance (Varint.encodedSize (UInt64.ofNat l.length)))) := by
  have hlen := length_entryBytes keyBytes itemBytes l
  have hone := Varint.encodedSize_pos (UInt64.ofNat l.length)
  have hle : l.length ≤ (l.flatMap fun e => keyBytes e.1 ++ itemBytes e.2).length := by
    refine Reading.length_le_length_flatMap fun e he => ?_
    have := hpos e he
    rw [List.length_append]
    omega
  have hs' : s.rest = Varint.encode (UInt64.ofNat l.length) ++
      ((l.flatMap fun e => keyBytes e.1 ++ itemBytes e.2) ++ rest) := by
    rw [hs, entryBytes, List.append_assoc]
  rw [entries, framed_of_le (by omega), exactly, hstop, counts_eq (by omega) hs' fun stop' h => by
    have := hstops stop' h
    omega]

/-- **The entries of a map** are all read, in their order, if no key comes twice. Otherwise the
first entry whose key came before is told. -/
theorem entries_cases (what : String) {s : Source} (hl : GivesEach key item keyBytes itemBytes f l)
    (hpos : ∀ e ∈ l, 0 < (keyBytes e.1).length)
    (hsize : (entryBytes keyBytes itemBytes l).length < 2 ^ 64)
    (hs : s.rest = entryBytes keyBytes itemBytes l ++ rest)
    (hstops : ∀ stop ∈ stops, s.pos + (entryBytes keyBytes itemBytes l).length ≤ stop) :
    ((l.map Prod.fst).Nodup →
      entries what (.exact (entryBytes keyBytes itemBytes l).length) key item stops s =
        (.ok (.ofList (l.map fun e => (e.1, f e.2))),
          s.advance (entryBytes keyBytes itemBytes l).length)) ∧
    (¬(l.map Prod.fst).Nodup → ∃ before e after t, l = before ++ e :: after ∧
      (before.map Prod.fst).Nodup ∧ e.1 ∈ before.map Prod.fst ∧
      entries what (.exact (entryBytes keyBytes itemBytes l).length) key item stops s =
        (.error (.format (.duplicateKey what e.1)), t)) := by
  have hkeys := InsertionMap.keys_map (K := String) f
  have hlen := length_entryBytes keyBytes itemBytes l
  generalize hstop : s.pos + (entryBytes keyBytes itemBytes l).length = stop at hstops
  have hframe : ∀ stop' ∈ stop :: stops, stop ≤ stop' :=
    List.forall_mem_cons.mpr ⟨Nat.le_refl _, hstops⟩
  rw [entries_eq hpos hsize hs hstop hframe]
  have hrest : (s.advance (Varint.encodedSize (UInt64.ofNat l.length))).rest =
      (l.flatMap fun e => keyBytes e.1 ++ itemBytes e.2) ++ rest := by
    rw [← Varint.length_encode]
    rw [entryBytes, List.append_assoc] at hs
    exact Source.rest_advance hs
  have hfit : ∀ stop' ∈ stop :: stops,
      (s.advance (Varint.encodedSize (UInt64.ofNat l.length))).pos +
        (l.flatMap fun e => keyBytes e.1 ++ itemBytes e.2).length ≤ stop' := fun stop' h => by
    have := hframe stop' h
    rw [Source.advance_pos]
    omega
  rcases entriesInto_cases what (m := ∅) hl hrest hfit with
    ⟨hfresh, hok⟩ | ⟨before, e, after, t, rfl, hfresh, hd, herror⟩
  · rw [InsertionMap.fresh_empty_iff, hkeys] at hfresh
    refine ⟨fun _ => Reading.leave_eq_ok_iff.mpr ⟨?_, ?_⟩, fun hdup => absurd hfresh hdup⟩
    · rw [hok, Source.advance_advance, ← hlen]
      rfl
    · rw [Source.advance_pos, hstop]
  · rw [InsertionMap.fresh_empty_iff, hkeys] at hfresh
    have hmem := (InsertionMap.contains_ofList_iff (by rwa [hkeys])).mp hd
    rw [hkeys] at hmem
    refine ⟨fun hnodup => ?_, fun _ => ⟨before, e, after, t, rfl, hfresh, hmem, ?_⟩⟩
    · rw [List.map_append, List.map_cons, List.nodup_append] at hnodup
      exact absurd rfl (hnodup.2.2 e.1 hmem e.1 List.mem_cons_self)
    · rw [herror]
      rfl

/-- **A map is given** by entries that are, if no key comes twice. -/
theorem gives_entries (hl : GivesEach key item keyBytes itemBytes f l)
    (hpos : ∀ e ∈ l, 0 < (keyBytes e.1).length) (hd : (l.map Prod.fst).Nodup) {size : Nat}
    (hlt : size < 2 ^ 64) (hsize : (entryBytes keyBytes itemBytes l).length = size) :
    (entries what (.exact size) key item).Gives (entryBytes keyBytes itemBytes l)
      (.ofList (l.map fun e => (e.1, f e.2))) := by
  subst hsize
  exact fun stops s rest hs hstops => (entries_cases what hl hpos hlt hs hstops).1 hd

end Reader

/-! ### Programs -/

namespace Reading

variable {key : Reading String} {item : Reading α}

/-- In any frame, the key of each entry is read from its bytes, and from those of the value what `f`
makes of it. -/
def ReadsEach (key : Reading String) (item : Reading α) (keyBytes : String → Bytes)
    (itemBytes : β → Bytes) (f : β → α) (l : List (String × β)) : Prop :=
  ∀ e ∈ l, ∀ left, key.Yields left (keyBytes e.1) e.1 ∧ item.Yields left (itemBytes e.2) (f e.2)

/-- The program that reads a map is the reader that does. -/
theorem run_entries_eq (what : String) (declared : Declared) (key : Reading String)
    (item : Reading α) (stops : List Nat) (s : Source) :
    (entries what declared key item).run stops s =
      Reader.entries what declared key.run item.run stops s := by
  have hagrees := (Reader.agrees_run item).entries (Reader.agrees_run key) what declared stops s
  have hid : InsertionMap.map id = @id (InsertionMap String α) := funext InsertionMap.map_id
  rwa [hid, Reader.map_id] at hagrees

theorem run_entries (what : String) {s : Source} (hl : ReadsEach key item keyBytes itemBytes f l)
    (hpos : ∀ e ∈ l, 0 < (keyBytes e.1).length)
    (hsize : (entryBytes keyBytes itemBytes l).length < 2 ^ 64)
    (hs : s.rest = entryBytes keyBytes itemBytes l ++ rest)
    (hstops : ∀ stop ∈ stops, s.pos + (entryBytes keyBytes itemBytes l).length ≤ stop) :
    ((l.map Prod.fst).Nodup →
      (entries what (.exact (entryBytes keyBytes itemBytes l).length) key item).run stops s =
        (.ok (.ofList (l.map fun e => (e.1, f e.2))),
          s.advance (entryBytes keyBytes itemBytes l).length)) ∧
    (¬(l.map Prod.fst).Nodup → ∃ before e after t, l = before ++ e :: after ∧
      (before.map Prod.fst).Nodup ∧ e.1 ∈ before.map Prod.fst ∧
      (entries what (.exact (entryBytes keyBytes itemBytes l).length) key item).run stops s =
        (.error (.format (.duplicateKey what e.1)), t)) := by
  rw [run_entries_eq]
  refine Reader.entries_cases what (fun e he => ⟨?_, ?_⟩) hpos hsize hs hstops
  · exact Reader.gives_run fun left => (hl e he left).1
  · exact Reader.gives_run fun left => (hl e he left).2

theorem run_framed (what : String) {minimum size : Nat} (h : minimum ≤ size)
    (body : Nat → Reading α) (stops : List Nat) (s : Source) :
    (framed what minimum (.exact size) body).run stops s =
      leave what size (s.pos + size) ((body size).run ((s.pos + size) :: stops) s) := by
  have hsize : (Declared.exact size).atLeast what minimum = .ok size := if_neg (by omega)
  rw [framed, hsize]
  exact run_exactly what size (body size) stops s

end Reading

end TagFormat
