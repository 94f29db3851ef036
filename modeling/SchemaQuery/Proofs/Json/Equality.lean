import SchemaQuery.Proofs.Json.Members

/-!
# Equality of values

The equality of the stores is an equivalence: it does not matter from which side two values are
compared, and values that equal a third equal each other. It is coarser than identity, since the two
zeros are equal.
-/

namespace SchemaQuery

namespace Number

theorem beq_comm : ∀ a b : Number, (a == b) = (b == a)
  | .int m, .int n => @BEq.comm Int _ _ m n
  | .float x, .float y => @BEq.comm Int _ _ x.position y.position
  | .int _, .float _ => rfl
  | .float _, .int _ => rfl

theorem beq_trans : ∀ {a b c : Number}, (a == b) = true → (b == c) = true → (a == c) = true
  | .int m, .int n, .int k => @BEq.trans Int _ _ m n k
  | .float x, .float y, .float z => @BEq.trans Int _ _ x.position y.position z.position
  | .int _, .float _, _ => fun h => Bool.noConfusion h
  | .float _, .int _, _ => fun h => Bool.noConfusion h
  | _, .int _, .float _ => fun _ h => Bool.noConfusion h
  | _, .float _, .int _ => fun _ h => Bool.noConfusion h

end Number

namespace Json

mutual

theorem eqv_comm : ∀ a b : Json, eqv a b = eqv b a
  | .null, b => by cases b <;> rfl
  | .bool x, b => by
      cases b with
      | bool y => exact @BEq.comm Bool _ _ x y
      | _ => rfl
  | .number m, b => by
      cases b with
      | number n => exact Number.beq_comm m n
      | _ => rfl
  | .string s, b => by
      cases b with
      | string t => exact @BEq.comm String _ _ s t
      | _ => rfl
  | .array items, b => by
      cases b with
      | array others => simpa only [eqv] using eqvItems_comm items others
      | _ => rfl
  | .object members, b => by
      cases b with
      | object others => simpa only [eqv] using eqvMembers_comm members others
      | _ => rfl

theorem eqvItems_comm : ∀ as bs : List Json, eqvItems as bs = eqvItems bs as
  | [], bs => by cases bs <;> rfl
  | a :: as, bs => by
      cases bs with
      | nil => rfl
      | cons b bs => simp only [eqvItems, eqv_comm a b, eqvItems_comm as bs]

theorem eqvMembers_comm : ∀ as bs : List (String × Json), eqvMembers as bs = eqvMembers bs as
  | [], bs => by cases bs <;> rfl
  | (k, a) :: as, bs => by
      cases bs with
      | nil => rfl
      | cons member bs =>
          simp only [eqvMembers, eqv_comm a member.2, eqvMembers_comm as bs,
            @BEq.comm String _ _ k member.1]

end

mutual

theorem eqv_trans : ∀ a b c : Json, eqv a b = true → eqv b c = true → eqv a c = true
  | .null, b, c => by cases b <;> cases c <;> simp [eqv]
  | .bool x, b, c => by cases b <;> cases c <;> simp +contextual [eqv]
  | .number m, b, c => by
      cases b with
      | number n =>
          cases c with
          | number k => exact Number.beq_trans
          | _ => exact fun _ h => Bool.noConfusion h
      | _ => exact fun h => Bool.noConfusion h
  | .string s, b, c => by cases b <;> cases c <;> simp +contextual [eqv]
  | .array items, b, c => by
      cases b with
      | array others =>
          cases c with
          | array more => simpa only [eqv] using eqvItems_trans items others more
          | _ => exact fun _ h => Bool.noConfusion h
      | _ => exact fun h => Bool.noConfusion h
  | .object members, b, c => by
      cases b with
      | object others =>
          cases c with
          | object more => simpa only [eqv] using eqvMembers_trans members others more
          | _ => exact fun _ h => Bool.noConfusion h
      | _ => exact fun h => Bool.noConfusion h

theorem eqvItems_trans : ∀ as bs cs : List Json,
    eqvItems as bs = true → eqvItems bs cs = true → eqvItems as cs = true
  | [], bs, cs => by cases bs <;> cases cs <;> simp [eqvItems]
  | a :: as, bs, cs => by
      cases bs with
      | nil => exact fun h => Bool.noConfusion h
      | cons b bs =>
          cases cs with
          | nil => exact fun _ h => Bool.noConfusion h
          | cons c cs =>
              simp only [eqvItems, Bool.and_eq_true]
              rintro ⟨hab, has⟩ ⟨hbc, hbs⟩
              exact ⟨eqv_trans a b c hab hbc, eqvItems_trans as bs cs has hbs⟩

theorem eqvMembers_trans : ∀ as bs cs : List (String × Json),
    eqvMembers as bs = true → eqvMembers bs cs = true → eqvMembers as cs = true
  | [], bs, cs => by cases bs <;> cases cs <;> simp [eqvMembers]
  | (k, a) :: as, bs, cs => by
      cases bs with
      | nil => exact fun h => Bool.noConfusion h
      | cons member bs =>
          cases cs with
          | nil => exact fun _ h => Bool.noConfusion h
          | cons other cs =>
              simp only [eqvMembers, Bool.and_eq_true, beq_iff_eq]
              rintro ⟨⟨hname, hab⟩, has⟩ ⟨⟨hother, hbc⟩, hbs⟩
              exact ⟨⟨hname.trans hother, eqv_trans a member.2 other.2 hab hbc⟩,
                eqvMembers_trans as bs cs has hbs⟩

end

instance : PartialEquivBEq Json where
  symm {a b} h := (eqv_comm b a).trans h
  trans {a b c} := eqv_trans a b c

end Json

end SchemaQuery
