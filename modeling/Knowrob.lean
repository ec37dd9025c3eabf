import Knowrob.Terms.Binary64
import Knowrob.Terms.Rounding
import Knowrob.Terms.Term
import Knowrob.Terms.Substitution
import Knowrob.Terms.ApplySubstitution
import Knowrob.Terms.Unifier
import Knowrob.Terms.UnifierLaws
import Knowrob.Terms.Merge
import Knowrob.Formulas.Formula
import Knowrob.Queries.Qi
import Knowrob.Queries.RealParser
import Knowrob.Queries.TermRules
import Knowrob.Queries.ModalOptions
import Knowrob.Queries.QueryParser
import Knowrob.Queries.Reading
import Knowrob.Queries.Render
import Knowrob.Queries.RoundTrip
import Knowrob.Queries.Numbers
import Knowrob.Queries.TimeIntervals
import Knowrob.Queries.Termination
import Knowrob.Queries.Normal
import Knowrob.Terms.Predicate
import Knowrob.Mongo.Cursor
import Knowrob.Reasoner.Configuration
import Knowrob.Reasoner.Manager
import Knowrob.Reasoner.Runs
import Knowrob.Queries.AgentOptions
